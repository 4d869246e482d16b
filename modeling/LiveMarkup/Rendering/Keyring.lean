/-!
# Caches by key

The host can keep render caches under a key object of its own and a name. A key is found by its
address in memory, which may be given to a new key once neither the host nor the keyring refers to
the old one. The keyring does not keep keys alive; every look-up first drops the entries whose key
the host has let go.
-/

namespace LiveMarkup

/-- Names a render cache that belongs to no container. -/
structure CacheId where
  index : Nat
deriving DecidableEq, Repr, Inhabited

/-- A key object: which one it is, and where it lies. -/
structure Key where
  serial : Nat
  address : Nat
deriving DecidableEq, Repr, Inhabited

/-- The caches of one key by name. -/
structure KeyEntry where
  key : Key
  caches : List (String × CacheId)
deriving DecidableEq, Repr

/-- The keys that the host holds, and the caches that were asked for. -/
structure Keyring where
  /-- How many keys have been made. -/
  made : Nat
  live : List Key
  entries : List KeyEntry
deriving DecidableEq, Repr, Inhabited

namespace Keyring

/-- No key has been made. -/
def empty : Keyring :=
  ⟨0, [], []⟩

/-- The addresses that are in use or remembered. -/
def addresses (r : Keyring) : List Nat :=
  r.live.map (·.address) ++ r.entries.map (·.key.address)

/-- The least number from `n` on that is not in a list, trying as many as `fuel`. -/
def leastFree (taken : List Nat) (n : Nat) : Nat → Nat
  | 0 => n
  | fuel + 1 => if taken.contains n then leastFree taken (n + 1) fuel else n

/-- An address for the next key: the least one that is neither in use nor remembered. -/
def freeAddress (r : Keyring) : Nat :=
  leastFree r.addresses 0 r.addresses.length

/-- Makes a key that lies at an address, perhaps where an old one lay. -/
def newKeyAt (r : Keyring) (address : Nat) : Key × Keyring :=
  let key : Key := ⟨r.made, address⟩
  (key, { r with made := r.made + 1, live := key :: r.live })

/-- Makes a key. -/
def newKey (r : Keyring) : Key × Keyring :=
  r.newKeyAt r.freeAddress

/-- The host lets a key go. -/
def dropKey (r : Keyring) (key : Key) : Keyring :=
  { r with live := r.live.erase key }

/-- Drops the entries of keys that the host has let go. -/
def sweep (r : Keyring) : Keyring :=
  { r with entries := r.entries.filter fun e => r.live.contains e.key }

/-- The entries with those of one replaced, which is added if it is missing. -/
def store (address : Nat) (entry : KeyEntry) : List KeyEntry → List KeyEntry
  | [] => [entry]
  | e :: rest => if e.key.address = address then entry :: rest else e :: store address entry rest

/-- The cache for a key and a name, which is `fresh` if there is none yet. -/
def cacheFor (r : Keyring) (key : Key) (name : String) (fresh : CacheId) : CacheId × Keyring :=
  let r := r.sweep
  let entry := (r.entries.find? (·.key.address == key.address)).getD ⟨key, []⟩
  match entry.caches.lookup name with
  | some id => (id, r)
  | none =>
    let entry := { entry with caches := (name, fresh) :: entry.caches }
    (fresh, { r with entries := store key.address entry r.entries })

/-- All caches that the keyring keeps. -/
def caches (r : Keyring) : List CacheId :=
  r.entries.flatMap fun e => e.caches.map (·.2)

end Keyring

end LiveMarkup
