import LiveMarkup.Proofs.Rendering.Isolation
/-!
# Caches belong to their keys

A keyring knows a key by the address at which it lies, and an address that neither a key of the host nor an
entry has may be given to the next key. So one address may be that of many keys, one after another. What keeps
their caches apart is that an entry remembers its key and thereby keeps the address taken, and that entries whose
key is gone are dropped before anything is looked up: whatever is then found at the address of a key that is held
is its own (`Keyring.key_eq_of_address`).

`Renderer.Issued` are the renderers that come about by making keys at any free addresses, letting keys go, asking
for caches, and all else that a renderer is asked to do in between. In each of them a cache has been given out for
one key and one name only, and for these always the same one (`Renderer.Issued.exclusive`).
-/

namespace LiveMarkup

namespace Keyring

variable {r : Keyring} {key : Key} {name : String} {address : Nat} {entry e : KeyEntry}
  {entries : List KeyEntry} {fresh : CacheId}

/-! ### Addresses -/

/-- The keys that the host holds, and those that entries remember. -/
def keys (r : Keyring) : List Key :=
  r.live ++ r.entries.map (·.key)

theorem addresses_eq (r : Keyring) : r.addresses = r.keys.map (·.address) := by
  simp [addresses, keys]

/-- A search through as many numbers as are taken, all of which are, ends at one that is not. -/
theorem leastFree_notMem {taken : List Nat} {n fuel : Nat} (hbelow : ∀ i < n, i ∈ taken)
    (hlength : taken.length ≤ n + fuel) : leastFree taken n fuel ∉ taken := by
  induction fuel generalizing n with
  | zero =>
    rw [leastFree]
    intro hn
    have hsub : List.range (n + 1) ⊆ taken := by
      intro i hi
      rcases Nat.lt_succ_iff_lt_or_eq.1 (List.mem_range.1 hi) with hlt | rfl
      · exact hbelow i hlt
      · exact hn
    have hle := (List.nodup_range.subperm hsub).length_le
    rw [List.length_range] at hle
    omega
  | succ fuel ih =>
    rw [leastFree]
    split
    · rename_i hn
      apply ih _ (by omega)
      intro i hi
      rcases Nat.lt_succ_iff_lt_or_eq.1 hi with hlt | rfl
      · exact hbelow i hlt
      · exact List.contains_iff_mem.1 hn
    · rename_i hn
      exact fun hmem => hn (List.contains_iff_mem.2 hmem)

/-- The address that a keyring chooses is free. -/
theorem freeAddress_notMem (r : Keyring) : r.freeAddress ∉ r.addresses :=
  leastFree_notMem (fun _ hi => absurd hi (Nat.not_lt_zero _)) (Nat.zero_add _).ge

/-! ### Entries -/

/-- The caches that are kept for the key at an address. -/
def cachesAt (r : Keyring) (address : Nat) : List (String × CacheId) :=
  (r.entries.find? (·.key.address == address)).elim [] KeyEntry.caches

theorem find?_store (hentry : entry.key.address = address) (address' : Nat) :
    (store address entry entries).find? (·.key.address == address') =
      if address' = address then some entry else entries.find? (·.key.address == address') := by
  induction entries with
  | nil =>
    rw [store, List.find?_singleton, hentry]
    split_ifs <;> simp_all
  | cons e rest ih =>
    rw [store]
    by_cases he : e.key.address = address
    · rw [if_pos he]
      by_cases ha : address' = address
      · simp [ha, hentry]
      · have hne : (address == address') = false := by simpa using Ne.symm ha
        simp [ha, hentry, he, hne]
    · rw [if_neg he, List.find?_cons, ih, List.find?_cons]
      by_cases ha : address' = address
      · have hne : (e.key.address == address) = false := by simpa using he
        simp [ha, hne]
      · simp [ha]

theorem eq_or_mem_of_mem_store (h : e ∈ store address entry entries) : e = entry ∨ e ∈ entries := by
  induction entries with
  | nil => exact .inl (List.mem_singleton.1 h)
  | cons e' rest ih =>
    rw [store] at h
    split at h
    · exact (List.mem_cons.1 h).imp_right (List.mem_cons_of_mem _)
    · rcases List.mem_cons.1 h with rfl | h
      · exact .inr List.mem_cons_self
      · exact (ih h).imp_right (List.mem_cons_of_mem _)

/-- No two keys that are referred to lie at one address, and each has been made. -/
structure Apart (r : Keyring) : Prop where
  address : ∀ k ∈ r.keys, ∀ k' ∈ r.keys, k.address = k'.address → k = k'
  made : ∀ k ∈ r.keys, k.serial < r.made

theorem keys_sweep_subset (r : Keyring) : r.sweep.keys ⊆ r.keys := by
  intro k hk
  simp only [keys, sweep, List.mem_append, List.mem_map, List.mem_filter] at hk ⊢
  rcases hk with hk | ⟨e, ⟨he, -⟩, rfl⟩
  · exact .inl hk
  · exact .inr ⟨e, he, rfl⟩

theorem Apart.of_subset {r' : Keyring} (h : r.Apart) (hkeys : r'.keys ⊆ r.keys) (hmade : r.made ≤ r'.made) :
    r'.Apart where
  address k hk k' hk' := h.address k (hkeys hk) k' (hkeys hk')
  made k hk := Nat.lt_of_lt_of_le (h.made k (hkeys hk)) hmade

/-- An entry at the address of a key that the host holds is the entry of that key. -/
theorem Apart.key_eq_of_address (h : r.Apart) (hkey : key ∈ r.live) (he : e ∈ r.entries)
    (haddress : e.key.address = key.address) : e.key = key :=
  h.address _ (List.mem_append_right _ (List.mem_map_of_mem he)) _ (List.mem_append_left _ hkey) haddress

theorem apart_newKeyAt (h : r.Apart) (hfree : address ∉ r.addresses) : (r.newKeyAt address).2.Apart := by
  have hkeys : (r.newKeyAt address).2.keys = ⟨r.made, address⟩ :: r.keys := rfl
  rw [addresses_eq] at hfree
  have hother : ∀ k ∈ r.keys, k.address ≠ address :=
    fun k hk ha => hfree (List.mem_map.2 ⟨k, hk, ha⟩)
  constructor
  · rw [hkeys]
    intro k hk k' hk' ha
    rcases List.mem_cons.1 hk with rfl | hk <;> rcases List.mem_cons.1 hk' with rfl | hk'
    · rfl
    · exact absurd ha.symm (hother k' hk')
    · exact absurd ha (hother k hk)
    · exact h.address k hk k' hk' ha
  · rw [hkeys]
    intro k hk
    show k.serial < r.made + 1
    rcases List.mem_cons.1 hk with rfl | hk
    · exact Nat.lt_succ_self _
    · exact Nat.lt_succ_of_lt (h.made k hk)

theorem apart_dropKey (h : r.Apart) (key : Key) : (r.dropKey key).Apart := by
  refine h.of_subset (fun k hk => ?_) (Nat.le_refl _)
  rcases List.mem_append.1 hk with hk | hk
  · exact List.mem_append_left _ (List.mem_of_mem_erase hk)
  · exact List.mem_append_right _ hk

theorem find?_filter_of_imp {p q : KeyEntry → Bool} (h : ∀ e ∈ entries, q e → p e) :
    (entries.filter p).find? q = entries.find? q := by
  induction entries with
  | nil => rfl
  | cons e rest ih =>
    have hrest := ih fun e he => h e (List.mem_cons_of_mem _ he)
    cases hq : q e with
    | true => rw [List.filter_cons_of_pos (h e List.mem_cons_self hq), List.find?_cons_of_pos hq,
        List.find?_cons_of_pos hq]
    | false =>
      rw [List.find?_cons_of_neg (by simp [hq]), ← hrest, List.filter_cons]
      split
      · rw [List.find?_cons_of_neg (by simp [hq])]
      · rfl

/-- Sweeping drops nothing that belongs to a key of the host. -/
theorem find?_sweep (h : r.Apart) (hkey : key ∈ r.live) :
    r.sweep.entries.find? (·.key.address == key.address) =
      r.entries.find? (·.key.address == key.address) := by
  apply find?_filter_of_imp
  intro e he ha
  rw [h.key_eq_of_address hkey he (beq_iff_eq.1 ha)]
  exact List.contains_iff_mem.2 hkey

theorem cachesAt_sweep (h : r.Apart) (hkey : key ∈ r.live) :
    r.sweep.cachesAt key.address = r.cachesAt key.address := by
  rw [cachesAt, find?_sweep h hkey, cachesAt]

/-- What is kept at the address of a key that the host holds is in an entry of this key. -/
theorem mem_cachesAt (h : r.Apart) (hkey : key ∈ r.live) {c : String × CacheId}
    (hc : c ∈ r.cachesAt key.address) : ∃ e ∈ r.entries, e.key = key ∧ c ∈ e.caches := by
  rw [cachesAt] at hc
  cases hfind : r.entries.find? (·.key.address == key.address) with
  | none => rw [hfind] at hc; exact absurd hc List.not_mem_nil
  | some e =>
    rw [hfind] at hc
    have he := List.mem_of_find?_eq_some hfind
    have haddress : e.key.address = key.address := by simpa using List.find?_some hfind
    exact ⟨e, he, h.key_eq_of_address hkey he haddress, hc⟩

/-- What is kept at each address when the entry of a key has been stored. -/
theorem cachesAt_store (r : Keyring) (key : Key) (caches : List (String × CacheId)) (address : Nat) :
    Keyring.cachesAt { r with entries := store key.address ⟨key, caches⟩ r.entries } address =
      if address = key.address then caches else r.cachesAt address := by
  have hentry : (⟨key, caches⟩ : KeyEntry).key.address = key.address := rfl
  simp only [cachesAt, find?_store hentry]
  split_ifs <;> rfl

/-! ### Asking for a cache -/

/-- A key that the host holds gets the cache that is kept for it, or a fresh one that is kept from then on. -/
theorem cacheFor_eq (h : r.Apart) (hkey : key ∈ r.live) :
    r.cacheFor key name fresh =
      match (r.cachesAt key.address).lookup name with
      | some id => (id, r.sweep)
      | none => (fresh, { r.sweep with
          entries := store key.address ⟨key, (name, fresh) :: r.cachesAt key.address⟩ r.sweep.entries }) := by
  have hentry : (r.entries.find? (·.key.address == key.address)).getD ⟨key, []⟩ =
      ⟨key, r.cachesAt key.address⟩ := by
    rw [cachesAt]
    cases hfind : r.entries.find? (·.key.address == key.address) with
    | none => rfl
    | some e =>
      have he := List.mem_of_find?_eq_some hfind
      have haddress : e.key.address = key.address := by simpa using List.find?_some hfind
      obtain rfl := h.key_eq_of_address hkey he haddress
      rfl
  cases hlookup : (r.cachesAt key.address).lookup name with
  | some id => simp only [cacheFor, find?_sweep h hkey, hentry, hlookup]
  | none => simp only [cacheFor, find?_sweep h hkey, hentry, hlookup]

/-- After a call only keys that the host holds have entries. -/
theorem mem_live_of_mem_entries_cacheFor (h : r.Apart) (hkey : key ∈ r.live)
    (he : e ∈ (r.cacheFor key name fresh).2.entries) : e.key ∈ (r.cacheFor key name fresh).2.live := by
  have hswept : ∀ e ∈ r.sweep.entries, e.key ∈ r.live :=
    fun e he => List.contains_iff_mem.1 (List.mem_filter.1 he).2
  rw [cacheFor_eq h hkey] at he ⊢
  cases hlookup : (r.cachesAt key.address).lookup name with
  | some id =>
    rw [hlookup] at he
    exact hswept e he
  | none =>
    rw [hlookup] at he
    rcases eq_or_mem_of_mem_store he with rfl | he
    · exact hkey
    · exact hswept e he

end Keyring

/-! ### What has been given out -/

/-- A cache that has been given out for a key and a name. -/
structure Issue where
  key : Key
  name : String
  cache : CacheId
deriving DecidableEq, Repr

/-- Whether the host asks for something other than keys and their caches. -/
def Call.IsForeign : Call → Prop
  | .newKey | .dropKey _ | .cacheFor .. => False
  | _ => True

namespace Renderer

/-- Makes a key that lies at an address. -/
def newKeyAt (r : Renderer) (address : Nat) : Renderer :=
  { r with keyring := (r.keyring.newKeyAt address).2 }

/-- Renderers that come about from an empty one, with all caches that have been given out, last one first. A key
may lie wherever neither a key of the host nor an entry does, and caches are asked for with keys of the host. -/
inductive Issued : List Issue → Renderer → Prop where
  | empty : Issued [] .empty
  | newKeyAt {log : List Issue} {r : Renderer} (h : Issued log r) {address : Nat}
      (free : address ∉ r.keyring.addresses) : Issued log (r.newKeyAt address)
  | dropKey {log : List Issue} {r : Renderer} (h : Issued log r) (key : Key) : Issued log (r.dropKey key)
  | cacheFor {log : List Issue} {r : Renderer} (h : Issued log r) {key : Key} (live : key ∈ r.keyring.live)
      (name : String) : Issued (⟨key, name, (r.cacheFor key name).1⟩ :: log) (r.cacheFor key name).2
  | edit {log : List Issue} {r : Renderer} (h : Issued log r) (f : Document → Document) :
      Issued log (r.edit f)
  | answer {log : List Issue} {r : Renderer} (h : Issued log r) {call : Call} (foreign : call.IsForeign) :
      Issued log (r.answer call)

variable {log : List Issue} {r r' : Renderer} {key : Key} {name : String} {call : Call}

/-- The keys that a renderer makes lie at free addresses. -/
theorem Issued.newKey (h : Issued log r) : Issued log r.newKey.2 :=
  h.newKeyAt r.keyring.freeAddress_notMem

/-- The account of what has been given out: all that entries hold is in it, and what has been given out for a key
that the host still holds is kept at its address. -/
structure Accounts (log : List Issue) (r : Renderer) : Prop where
  apart : r.keyring.Apart
  made : ∀ a ∈ log, a.key.serial < r.keyring.made
  there : ∀ a ∈ log, a.cache.index < r.detached.size
  exclusive : ∀ a ∈ log, ∀ b ∈ log, a.cache = b.cache ↔ a.key = b.key ∧ a.name = b.name
  listed : ∀ e ∈ r.keyring.entries, ∀ c ∈ e.caches, ⟨e.key, c.1, c.2⟩ ∈ log
  kept : ∀ a ∈ log, a.key ∈ r.keyring.live → (r.keyring.cachesAt a.key.address).lookup a.name = some a.cache

namespace Accounts

theorem congr (h : Accounts log r) (hkeyring : r'.keyring = r.keyring)
    (hsize : r.detached.size ≤ r'.detached.size) : Accounts log r' where
  apart := hkeyring ▸ h.apart
  made := hkeyring ▸ h.made
  there a ha := Nat.lt_of_lt_of_le (h.there a ha) hsize
  exclusive := h.exclusive
  listed := hkeyring ▸ h.listed
  kept := hkeyring ▸ h.kept

theorem newKeyAt (h : Accounts log r) {address : Nat} (hfree : address ∉ r.keyring.addresses) :
    Accounts log (r.newKeyAt address) where
  apart := Keyring.apart_newKeyAt h.apart hfree
  made a ha := Nat.lt_succ_of_lt (h.made a ha)
  there := h.there
  exclusive := h.exclusive
  listed := h.listed
  kept a ha hlive := by
    apply h.kept a ha
    -- a key that something has been given out for is older than the one that is made now
    refine (List.mem_cons.1 hlive).resolve_left fun hnew => ?_
    have hserial := h.made a ha
    rw [hnew] at hserial
    exact Nat.lt_irrefl _ hserial

theorem dropKey (h : Accounts log r) (key : Key) : Accounts log (r.dropKey key) where
  apart := Keyring.apart_dropKey h.apart key
  made := h.made
  there := h.there
  exclusive := h.exclusive
  listed := h.listed
  kept a ha hlive := h.kept a ha (List.mem_of_mem_erase hlive)

/-- A cache that is kept for a key is given out again. -/
theorem cacheFor_known (h : Accounts log r) (hlive : key ∈ r.keyring.live) {id : CacheId}
    (hlookup : (r.keyring.cachesAt key.address).lookup name = some id) :
    ⟨key, name, id⟩ ∈ log ∧ (r.cacheFor key name).1 = id ∧ Accounts log (r.cacheFor key name).2 := by
  have hasked : r.keyring.cacheFor key name ⟨r.detached.size⟩ = _ := Keyring.cacheFor_eq h.apart hlive
  have hfound : (name, id) ∈ r.keyring.cachesAt key.address := by
    obtain ⟨front, back, hsplit, -⟩ := List.lookup_eq_some_iff.1 hlookup
    simp [hsplit]
  obtain ⟨e, he, rfl, hmem⟩ := Keyring.mem_cachesAt h.apart hlive hfound
  have hissued := h.listed e he _ hmem
  rw [hlookup] at hasked
  refine ⟨hissued, by rw [Renderer.cacheFor, hasked], ?_⟩
  have hold : id ≠ ⟨r.detached.size⟩ := by
    rintro rfl
    exact Nat.lt_irrefl _ (h.there _ hissued)
  rw [Renderer.cacheFor, hasked]
  dsimp only
  rw [if_neg hold]
  refine ⟨h.apart.of_subset r.keyring.keys_sweep_subset (Nat.le_refl _), h.made, h.there, h.exclusive, ?_, ?_⟩
  · exact fun e he => h.listed e (List.mem_filter.1 he).1
  · intro a ha hlive'
    rw [Keyring.cachesAt_sweep h.apart hlive']
    exact h.kept a ha hlive'

/-- Otherwise a cache is made that nothing has been given before. -/
theorem cacheFor_fresh (h : Accounts log r) (hlive : key ∈ r.keyring.live)
    (hlookup : (r.keyring.cachesAt key.address).lookup name = none) :
    (r.cacheFor key name).1 = ⟨r.detached.size⟩ ∧
      Accounts (⟨key, name, ⟨r.detached.size⟩⟩ :: log) (r.cacheFor key name).2 := by
  have hasked : r.keyring.cacheFor key name ⟨r.detached.size⟩ = _ := Keyring.cacheFor_eq h.apart hlive
  rw [hlookup] at hasked
  refine ⟨by rw [Renderer.cacheFor, hasked], ?_⟩
  have hunasked : ∀ a ∈ log, ¬ (a.key = key ∧ a.name = name) := by
    rintro a ha ⟨rfl, rfl⟩
    have hkept := h.kept a ha hlive
    rw [hlookup] at hkept
    cases hkept
  have hother : ∀ a ∈ log, a.cache ≠ ⟨r.detached.size⟩ := by
    rintro a ha hcache
    have hthere := h.there a ha
    rw [hcache] at hthere
    exact Nat.lt_irrefl _ hthere
  rw [Renderer.cacheFor, hasked]
  dsimp only
  rw [if_pos rfl]
  constructor
  · refine h.apart.of_subset (fun k hk => ?_) (Nat.le_refl _)
    rcases List.mem_append.1 hk with hk | hk
    · exact List.mem_append_left _ hk
    · obtain ⟨e, he, rfl⟩ := List.mem_map.1 hk
      rcases Keyring.eq_or_mem_of_mem_store he with rfl | he
      · exact List.mem_append_left _ hlive
      · exact List.mem_append_right _ (List.mem_map_of_mem (List.mem_filter.1 he).1)
  · rintro a ha
    rcases List.mem_cons.1 ha with rfl | ha
    · exact h.apart.made key (List.mem_append_left _ hlive)
    · exact h.made a ha
  · intro a ha
    rw [Array.size_push]
    rcases List.mem_cons.1 ha with rfl | ha
    · exact Nat.lt_succ_self _
    · exact Nat.lt_succ_of_lt (h.there a ha)
  · intro a ha b hb
    rcases List.mem_cons.1 ha with rfl | ha <;> rcases List.mem_cons.1 hb with rfl | hb
    · simp
    · exact iff_of_false (hother b hb).symm fun heq => hunasked b hb ⟨heq.1.symm, heq.2.symm⟩
    · exact iff_of_false (hother a ha) (hunasked a ha)
    · exact h.exclusive a ha b hb
  · intro e he c hc
    rcases Keyring.eq_or_mem_of_mem_store he with rfl | he
    · rcases List.mem_cons.1 hc with rfl | hc
      · exact List.mem_cons_self
      · obtain ⟨e, he, hkey, hmem⟩ := Keyring.mem_cachesAt h.apart hlive hc
        exact List.mem_cons_of_mem _ (hkey ▸ h.listed e he c hmem)
    · exact List.mem_cons_of_mem _ (h.listed e (List.mem_filter.1 he).1 c hc)
  · intro a ha hlive'
    rw [Keyring.cachesAt_store]
    by_cases haddress : a.key.address = key.address
    · have hkey : a.key = key := h.apart.address _ (List.mem_append_left _ hlive') _
        (List.mem_append_left _ hlive) haddress
      rw [if_pos haddress]
      rcases List.mem_cons.1 ha with rfl | ha
      · exact List.lookup_cons_self
      · have hname : a.name ≠ name := fun hname => hunasked a ha ⟨hkey, hname⟩
        rw [List.lookup_cons, beq_eq_false_iff_ne.2 hname, ← hkey]
        exact h.kept a ha hlive'
    · have ha : a ∈ log := (List.mem_cons.1 ha).resolve_left fun heq => haddress (heq ▸ rfl)
      rw [if_neg haddress, Keyring.cachesAt_sweep h.apart hlive']
      exact h.kept a ha hlive'

end Accounts

/-! ### All that can happen -/

theorem keyring_mount (r : Renderer) (container : NodeId) (cache : Cache) (block : Block) :
    (r.mount container cache block).keyring = r.keyring ∧
      (r.mount container cache block).detached = r.detached := by
  unfold mount
  split_ifs <;> exact ⟨rfl, rfl⟩

theorem keyring_showWith (r : Renderer) (cache : Cache) (custody : Custody) (space : Markup.Namespace)
    (template : Template) (values : List Value) :
    (r.showWith cache custody space template values).2.keyring = r.keyring ∧
      (r.showWith cache custody space template values).2.detached = r.detached := by
  unfold showWith
  split <;> exact ⟨rfl, rfl⟩

/-- Rendering neither looks at keys nor takes a cache away. -/
theorem keyring_answer (r : Renderer) (hforeign : call.IsForeign) :
    (r.answer call).keyring = r.keyring ∧ r.detached.size ≤ (r.answer call).detached.size := by
  cases call with
  | newKey => cases hforeign
  | dropKey key => cases hforeign
  | cacheFor key name => cases hforeign
  | hold nodes caches => exact ⟨rfl, Nat.le_refl _⟩
  | compile space template => exact ⟨rfl, Nat.le_refl _⟩
  | settle => exact ⟨rfl, Nat.le_refl _⟩
  | render container value =>
    have hmount (r : Renderer) (cache : Cache) (block : Block) :
        (r.mount container cache block).keyring = r.keyring ∧
          r.detached.size ≤ (r.mount container cache block).detached.size := by
      obtain ⟨hkeyring, hdetached⟩ := r.keyring_mount container cache block
      exact ⟨hkeyring, (congrArg Array.size hdetached).ge⟩
    cases value with
    | invocation space template values =>
      rw [answer, render]
      split
      · exact ⟨rfl, Nat.le_refl _⟩
      · exact hmount _ _ _
    | node n => exact hmount _ _ _
    | block block => exact hmount _ _ _
    | _ => exact ⟨rfl, Nat.le_refl _⟩
  | renderDetached id space template values =>
    have hshow := r.keyring_showWith (r.detachedCache id) (r.custody none (some id)) space template values
    rw [answer, renderDetached]
    split <;> rename_i heq <;> rw [heq] at hshow
    · exact ⟨hshow.1, (congrArg Array.size hshow.2).ge⟩
    · refine ⟨hshow.1, ?_⟩
      rw [Array.size_modify]
      exact (congrArg Array.size hshow.2).ge
  | instantiate space template values =>
    have hshow := r.keyring_showWith .empty (r.custody none none) space template values
    rw [answer, instantiate]
    split <;> rename_i heq <;> rw [heq] at hshow <;> exact ⟨hshow.1, (congrArg Array.size hshow.2).ge⟩

theorem Accounts.cacheFor (h : Accounts log r) (hlive : key ∈ r.keyring.live) (name : String) :
    Accounts (⟨key, name, (r.cacheFor key name).1⟩ :: log) (r.cacheFor key name).2 := by
  cases hlookup : (r.keyring.cachesAt key.address).lookup name with
  | some id =>
    obtain ⟨hissued, hid, haccounts⟩ := h.cacheFor_known hlive hlookup
    rw [hid]
    have hsame : ∀ a, a ∈ (⟨key, name, id⟩ : Issue) :: log ↔ a ∈ log := by
      intro a
      rw [List.mem_cons, or_iff_right_of_imp]
      rintro rfl
      exact hissued
    constructor
    · exact haccounts.apart
    · simpa only [hsame] using haccounts.made
    · simpa only [hsame] using haccounts.there
    · simpa only [hsame] using haccounts.exclusive
    · simpa only [hsame] using haccounts.listed
    · simpa only [hsame] using haccounts.kept
  | none =>
    obtain ⟨hid, haccounts⟩ := h.cacheFor_fresh hlive hlookup
    rw [hid]
    exact haccounts

theorem Issued.accounts (h : Issued log r) : Accounts log r := by
  induction h with
  | empty =>
    have hkeys : Renderer.empty.keyring.keys = [] := rfl
    have hentries : Renderer.empty.keyring.entries = [] := rfl
    refine ⟨⟨?_, ?_⟩, ?_, ?_, ?_, ?_, ?_⟩ <;> simp [hkeys, hentries]
  | newKeyAt _ free ih => exact ih.newKeyAt free
  | dropKey _ key ih => exact ih.dropKey key
  | cacheFor _ live name ih => exact ih.cacheFor live name
  | edit _ _ ih => exact ih.congr rfl (Nat.le_refl _)
  | answer _ foreign ih =>
    obtain ⟨hkeyring, hsize⟩ := keyring_answer _ foreign
    exact ih.congr hkeyring hsize

/-- Of all caches that have been given out, two are the same exactly if they are for one key and one name, and
entries hold nothing else. Asking once more for a key of the host gives the cache that has been given out for it
under this name, or one that is made now; and only keys of the host have entries then. -/
theorem Issued.exclusive (h : Issued log r) :
    (∀ a ∈ log, ∀ b ∈ log, a.cache = b.cache ↔ a.key = b.key ∧ a.name = b.name) ∧
      (∀ e ∈ r.keyring.entries, ∀ c ∈ e.caches, ⟨e.key, c.1, c.2⟩ ∈ log) ∧
      ∀ key ∈ r.keyring.live, ∀ name,
        let asked := r.cacheFor key name
        (⟨key, name, asked.1⟩ ∈ log ∨ asked.1 = ⟨r.detached.size⟩ ∧ ∀ a ∈ log, a.cache ≠ asked.1) ∧
          ∀ e ∈ asked.2.keyring.entries, e.key ∈ asked.2.keyring.live := by
  have haccounts := h.accounts
  refine ⟨haccounts.exclusive, haccounts.listed, ?_⟩
  intro key hlive name asked
  constructor
  · cases hlookup : (r.keyring.cachesAt key.address).lookup name with
    | some id =>
      obtain ⟨hissued, hid, -⟩ := haccounts.cacheFor_known hlive hlookup
      exact .inl (hid ▸ hissued)
    | none =>
      obtain ⟨hid, -⟩ := haccounts.cacheFor_fresh hlive hlookup
      refine .inr ⟨hid, fun a ha hcache => ?_⟩
      have hthere := haccounts.there a ha
      rw [hcache, hid] at hthere
      exact Nat.lt_irrefl _ hthere
  · exact fun e he => Keyring.mem_live_of_mem_entries_cacheFor haccounts.apart hlive he

/-- A key lies at address 5 and has a cache, and is let go of. The next one cannot lie there yet; when a cache has
been asked for with it, the entry of the first one is gone, and a third key lies at address 5. -/
def tenants : Renderer :=
  let first := (Renderer.empty.newKeyAt 5).cacheFor ⟨0, 5⟩ "x"
  let second := ((first.2.dropKey ⟨0, 5⟩).newKeyAt 6).cacheFor ⟨1, 6⟩ "x"
  (second.2.newKeyAt 5).cacheFor ⟨2, 5⟩ "x" |>.2

theorem issued_tenants :
    Issued [⟨⟨2, 5⟩, "x", ⟨2⟩⟩, ⟨⟨1, 6⟩, "x", ⟨1⟩⟩, ⟨⟨0, 5⟩, "x", ⟨0⟩⟩] tenants := by
  have hfirst := @Issued.cacheFor _ _ (@Issued.newKeyAt _ _ .empty 5 (by decide)) ⟨0, 5⟩ (by decide) "x"
  have hsecond := @Issued.cacheFor _ _ (@Issued.newKeyAt _ _ (hfirst.dropKey ⟨0, 5⟩) 6 (by decide)) ⟨1, 6⟩
    (by decide) "x"
  exact @Issued.cacheFor _ _ (@Issued.newKeyAt _ _ hsecond 5 (by decide)) ⟨2, 5⟩ (by decide) "x"

theorem exclusive_tenants :
    ⟨2, 5⟩ ∈ tenants.keyring.live ∧
      let asked := tenants.cacheFor ⟨2, 5⟩ "x"
      asked.1 = ⟨2⟩ ∧ ∀ e ∈ asked.2.keyring.entries, e.key ∈ asked.2.keyring.live := by
  have hlive : ⟨2, 5⟩ ∈ tenants.keyring.live := by decide
  exact ⟨hlive, by decide, ((Issued.exclusive issued_tenants).2.2 _ hlive "x").2⟩

end Renderer

end LiveMarkup
