import LiveMarkup.Document.Reconcile
/-!
# Reconciling by positions

A reconciliation can leave both lists as they are and keep four positions instead, which bound the entries of
either list that are still to be dealt with. Entries are then read at positions, and whether a run is long enough
is told from differences of positions. Where a position is not in the list, where a difference would be negative,
and where a turn does not bring the bounds closer together, there is no result.

What the entries are found on is left open: a `Ground` is any state with some way to find nodes in it and to
move them, so the way may remember things and do other things besides. That there always is a result, and that it is the
one of `Document.reconcile`, is shown elsewhere.
-/

namespace LiveMarkup

/-- Some state on which a reconciliation works: entries are found as nodes, and nodes are asked for their next
siblings and are inserted into the container, removed from it and replaced in it. -/
structure Ground (E N W : Type) where
  /-- The node in front of which the run of entries ends. -/
  before : Option N
  find : E → Access → W → N × W
  nextSibling? : W → N → Option N
  insertBefore : W → N → Option N → W
  removeChild : W → N → W
  /-- Puts the first node into the place of the second one. -/
  replaceChild : W → N → N → W

/-- How far a reconciliation by positions has come. -/
structure Counter (E W : Type) where
  /-- The old entries, where a new one stands instead of one that has been exchanged with the first one. -/
  old : List E
  oldStart : Nat
  oldEnd : Nat
  newStart : Nat
  newEnd : Nat
  index : Option (Index E)
  world : W
  /-- How often the entries at the two ends were exchanged. -/
  swaps : Nat

section

variable {E N W : Type}

namespace Ground

variable (g : Ground E N W)

/-- Inserts an entry into the container. -/
def insert (w : W) (e : E) (reference : Option N) : W :=
  let found := g.find e .insert w
  g.insertBefore found.2 found.1 reference

/-- Removes an entry from the container. -/
def remove (w : W) (e : E) : W :=
  let found := g.find e .remove w
  g.removeChild found.2 found.1

/-- Puts one entry into the place of another one. -/
def replace (w : W) (new old : E) : W :=
  let inserted := g.find new .insert w
  let removed := g.find old .remove inserted.2
  g.replaceChild removed.2 inserted.1 removed.1

end Ground

/-- The document, and the accesses made, last one first. -/
def Site.ground (site : Site E) : Ground E NodeId (Document × List (Access × E)) where
  before := site.before
  find e access w :=
    let found := site.find e access w.1
    (found.1, found.2, (access, e) :: w.2)
  nextSibling? w n := w.1.nextSibling? n
  insertBefore w n reference := (w.1.insertBefore site.container n reference, w.2)
  removeChild w n := (w.1.removeChild site.container n, w.2)
  replaceChild w new old := (w.1.replaceChild site.container new old, w.2)

namespace Counter

/-- The difference of two positions. -/
def minus? (i j : Nat) : Option Nat :=
  if j ≤ i then some (i - j) else none

/-- Everything is still to be dealt with. -/
def start (world : W) (old new : List E) : Counter E W :=
  { old, oldStart := 0, oldEnd := old.length, newStart := 0, newEnd := new.length, index := none, world, swaps := 0 }

/-- Whether every entry has been dealt with. -/
def isDone (c : Counter E W) : Bool :=
  !(c.oldStart < c.oldEnd || c.newStart < c.newEnd)

/-- How many entries are to be dealt with. -/
def remaining (c : Counter E W) : Nat :=
  (c.oldEnd - c.oldStart) + (c.newEnd - c.newStart)

/-- The positions bound parts of the two lists, and the old list is as long as it was. -/
structure InBounds (old new : List E) (c : Counter E W) : Prop where
  length_old : c.old.length = old.length
  oldStart_le : c.oldStart ≤ c.oldEnd
  oldEnd_le : c.oldEnd ≤ old.length
  newStart_le : c.newStart ≤ c.newEnd
  newEnd_le : c.newEnd ≤ new.length

variable (g : Ground E N W) (new : List E)

/-- Inserts the new entries up to a position in front of the same node. -/
def placeUpTo? (reference : Option N) (stop : Nat) (c : Counter E W) : Option (Counter E W) :=
  if c.newStart < stop then do
    let e ← new[c.newStart]?
    placeUpTo? reference stop { c with newStart := c.newStart + 1, world := g.insert c.world e reference }
  else some c
termination_by stop - c.newStart

/-- The node in front of which new entries are inserted when none of the old ones is left. -/
def gap? (c : Counter E W) : Option (Option N × W) :=
  if c.newEnd < new.length then
    if 0 < c.newStart then do
      let e ← new[← minus? c.newStart 1]?
      let found := g.find e .last c.world
      pure (g.nextSibling? found.2 found.1, found.2)
    else do
      let e ← new[c.newEnd]?
      let found := g.find e .first c.world
      pure (some found.1, found.2)
  else some (g.before, c.world)

/-- Places all new entries, when none of the old ones is left. -/
def placeRest? (c : Counter E W) : Option (Counter E W) := do
  let (reference, world) ← c.gap? g new
  placeUpTo? g new reference c.newEnd { c with world }

/-- Removes all old entries, when no new one is left. -/
def removeRest? (c : Counter E W) : Option (Counter E W) :=
  if c.oldStart < c.oldEnd then do
    let e ← c.old[c.oldStart]?
    removeRest? { c with oldStart := c.oldStart + 1, world := g.remove c.world e }
  else some c
termination_by c.oldEnd - c.oldStart

/-- Writes an entry into the old list. -/
def put? (c : Counter E W) (i : Nat) (e : E) : Option (List E) :=
  if i < c.old.length then some (c.old.set i e) else none

/-- Exchanges the entries at the two ends. -/
def swapEnds? (c : Counter E W) : Option (Counter E W) := do
  let oldEnd ← minus? c.oldEnd 1
  let last := g.find (← c.old[oldEnd]?) .remove c.world
  let afterLast := g.nextSibling? last.2 last.1
  let moved := g.find (← new[c.newStart]?) .insert last.2
  let first := g.find (← c.old[c.oldStart]?) .remove moved.2
  let afterFirst := g.nextSibling? first.2 first.1
  let there := g.insertBefore first.2 moved.1 afterFirst
  let newEnd ← minus? c.newEnd 1
  let e ← new[newEnd]?
  pure { c with
    old := ← c.put? oldEnd e
    oldStart := c.oldStart + 1
    oldEnd
    newStart := c.newStart + 1
    newEnd
    world := g.insert there e afterLast
    swaps := c.swaps + 1 }

/-- The new entries between two positions. -/
def between? (i j : Nat) : Option (List E) :=
  if i ≤ j ∧ j ≤ new.length then some ((new.take j).drop i) else none

/-- The index. The first time it is one of the new entries that are left. -/
def index? (c : Counter E W) : Option (Index E) :=
  match c.index with
  | some index => some index
  | none => (between? new c.newStart c.newEnd).map fun entries => ⟨entries, c.newStart⟩

variable [DecidableEq E]

/-- Whether the first entries on both sides are the same. -/
def sameFirst? (c : Counter E W) : Option Bool :=
  if c.oldStart < c.oldEnd ∧ c.newStart < c.newEnd then do
    let o ← c.old[c.oldStart]?
    let n ← new[c.newStart]?
    pure (o = n)
  else some false

/-- Whether the last entries on both sides are the same. -/
def sameLast? (c : Counter E W) : Option Bool :=
  if c.oldStart < c.oldEnd ∧ c.newStart < c.newEnd then do
    let o ← c.old[← minus? c.oldEnd 1]?
    let n ← new[← minus? c.newEnd 1]?
    pure (o = n)
  else some false

/-- Whether the first entry of either side is the last one of the other. -/
def endsCrossed? (c : Counter E W) : Option Bool := do
  let o ← c.old[c.oldStart]?
  let z ← c.old[← minus? c.oldEnd 1]?
  let n ← new[c.newStart]?
  let y ← new[← minus? c.newEnd 1]?
  pure (o = y && n = z)

/-- Deals with the last entry on both sides. -/
def exchangeLast? (c : Counter E W) : Option (Counter E W) := do
  let o ← c.old[c.oldStart]?
  let n ← new[c.newStart]?
  let known := match c.index with
    | some index => (index.position? o).isSome
    | none => false
  let world ←
    if known then
      if c.newEnd < new.length then do
        let e ← new[c.newEnd]?
        let found := g.find e .first c.world
        pure (g.insert found.2 n (some found.1))
      else some (g.insert c.world n g.before)
    else some (g.replace c.world n o)
  pure { c with oldStart := c.oldStart + 1, newStart := c.newStart + 1, world }

/-- How many entries follow each other in both lists: `next` is where the next one would be in the new list, and
`i` where it is in the old one. -/
def runFrom? (index : Index E) (c : Counter E W) (next i : Nat) : Option Nat :=
  if i < c.oldEnd then do
    let e ← c.old[i]?
    if index.position? e = some next then do
      let run ← runFrom? index c (next + 1) (i + 1)
      pure (run + 1)
    else pure 0
  else some 0
termination_by c.oldEnd - i

/-- Deals with the first old entry by its position in the new list. -/
def lookUp? (c : Counter E W) : Option (Counter E W) := do
  let index ← c.index? new
  let c := { c with index := some index }
  let o ← c.old[c.oldStart]?
  match index.position? o with
  | none => pure { c with oldStart := c.oldStart + 1, world := g.remove c.world o }
  | some i =>
    if c.newStart < i ∧ i < c.newEnd then do
      let run ← runFrom? index c (i + 1) (c.oldStart + 1)
      let ahead ← minus? i c.newStart
      if ahead < run + 1 then
        let found := g.find o .first c.world
        placeUpTo? g new (some found.1) i { c with world := found.2 }
      else do
        let n ← new[c.newStart]?
        pure { c with
          oldStart := c.oldStart + 1
          newStart := c.newStart + 1
          world := g.replace c.world n o }
    else pure { c with oldStart := c.oldStart + 1 }

/-- Deals with one or more entries. -/
def turn? (c : Counter E W) : Option (Counter E W) := do
  if ← c.sameFirst? new then
    pure { c with oldStart := c.oldStart + 1, newStart := c.newStart + 1 }
  else if ← c.sameLast? new then
    pure { c with oldEnd := ← minus? c.oldEnd 1, newEnd := ← minus? c.newEnd 1 }
  else if c.oldEnd = c.oldStart then c.placeRest? g new
  else if c.newEnd = c.newStart then c.removeRest? g
  else if (← minus? c.oldEnd c.oldStart) = 1 ∧ (← minus? c.newEnd c.newStart) = 1 then c.exchangeLast? g new
  else if ← c.endsCrossed? new then c.swapEnds? g new
  else c.lookUp? g new

/-- Deals with all entries. -/
def run? (c : Counter E W) : Option (Counter E W) :=
  if c.isDone then some c
  else do
    let next ← c.turn? g new
    if next.remaining < c.remaining then run? next else none
termination_by c.remaining

/-- What a reconciliation by positions comes to after some turns. -/
inductive Reached (c : Counter E W) : Counter E W → Prop where
  | start : Reached c c
  | turn {last next : Counter E W} (reached : Reached c last) (more : ¬ last.isDone)
      (turned : last.turn? g new = some next) : Reached c next

end Counter

end

end LiveMarkup
