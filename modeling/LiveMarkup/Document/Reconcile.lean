import LiveMarkup.Document.Blocks
/-!
# Reconciling lists of entries

The children of a container that stand for a list of entries are changed to stand for another list.
Entries at both ends that stay are left alone; in between, entries are appended, removed, exchanged
at the two ends, or looked up in an index of the new list, whichever applies first. This is cheap
for the usual changes, though not always the least possible number of edits.

A `Pass` is a reconciliation under way: the entries on either side that are still to be dealt with,
and the document so far. Each `step` deals with at least one of them (`remaining_step_lt`), so the
pass ends for any two lists, and none is lost from the new list on the way (`target_step`), so at
the end all of it is settled (`result_run`).
-/

namespace LiveMarkup

/-- The positions of the entries of a list, counted from `offset`. -/
structure Index (E : Type) where
  entries : List E
  offset : Nat
deriving Repr

/-- The position of the last occurrence in a list. -/
def lastPosition? {E : Type} [DecidableEq E] (e : E) : List E → Option Nat
  | [] => none
  | x :: rest =>
    match lastPosition? e rest with
    | some i => some (i + 1)
    | none => if x = e then some 0 else none

/-- The position of an entry. Of several occurrences the last one counts. -/
def Index.position? {E : Type} [DecidableEq E] (index : Index E) (e : E) : Option Nat :=
  (lastPosition? e index.entries).map (· + index.offset)

/-- How many entries at the start of a list stand at consecutive positions from `next` on. -/
def Index.runLength {E : Type} [DecidableEq E] (index : Index E) (next : Nat) : List E → Nat
  | [] => 0
  | x :: rest => if index.position? x = some next then index.runLength (next + 1) rest + 1 else 0

/-- Where a reconciliation takes place: the container, the node in front of which the run of entries
ends, and how the node of an entry is found. -/
structure Site (E : Type) where
  container : NodeId
  before : Option NodeId
  find : E → Access → Document → NodeId × Document

/-- A reconciliation under way. -/
structure Pass (E : Type) where
  /-- The entries that stand in the container and are not dealt with yet. -/
  old : List E
  /-- The entries that are still to be placed. -/
  new : List E
  /-- The entries of the new list that are settled in front of these, last one first. -/
  front : List E
  /-- The entries of the new list that are settled behind these, in order. -/
  back : List E
  index : Option (Index E)
  document : Document
  /-- The accesses made, last one first. -/
  accesses : List (Access × E)
  /-- How often the entries at the two ends were exchanged. -/
  swaps : Nat

namespace Pass

variable {E : Type}

/-- The start of a reconciliation. -/
def start (document : Document) (old new : List E) : Pass E :=
  { old, new, front := [], back := [], index := none, document, accesses := [], swaps := 0 }

/-- How many entries of the new list are settled in front. -/
def settled (s : Pass E) : Nat :=
  s.front.length

/-- All entries of the new list, settled or still to be placed. -/
def target (s : Pass E) : List E :=
  s.front.reverse ++ s.new ++ s.back

/-- The entries that are settled, which are all when every entry has been dealt with. -/
def result (s : Pass E) : List E :=
  s.front.reverse ++ s.back

/-- How many entries are to be dealt with. -/
def remaining (s : Pass E) : Nat :=
  s.old.length + s.new.length

/-- Whether every entry has been dealt with. -/
def isDone (s : Pass E) : Bool :=
  s.old.isEmpty && s.new.isEmpty

/-- Finds the node of an entry for a purpose. -/
def find (s : Pass E) (site : Site E) (e : E) (access : Access) : NodeId × Pass E :=
  let found := site.find e access s.document
  (found.1, { s with document := found.2, accesses := (access, e) :: s.accesses })

/-- Inserts an entry into the container. -/
def insert (s : Pass E) (site : Site E) (e : E) (reference : Option NodeId) : Pass E :=
  let found := s.find site e .insert
  { found.2 with document := found.2.document.insertBefore site.container found.1 reference }

/-- Inserts some entries one after another in front of the same node. -/
def insertAll (s : Pass E) (site : Site E) (entries : List E) (reference : Option NodeId) :
    Pass E :=
  entries.foldl (fun s e => s.insert site e reference) s

/-- Removes an entry from the container. -/
def remove (s : Pass E) (site : Site E) (e : E) : Pass E :=
  let found := s.find site e .remove
  { found.2 with document := found.2.document.removeChild site.container found.1 }

/-- Puts one entry into the place of another one. -/
def replace (s : Pass E) (site : Site E) (new old : E) : Pass E :=
  let inserted := s.find site new .insert
  let removed := inserted.2.find site old .remove
  { removed.2 with
    document := removed.2.document.replaceChild site.container inserted.1 removed.1 }

/-- The node in front of which new entries are inserted when none of the old ones is left: behind
those settled in front, in front of those settled behind. -/
def gap (s : Pass E) (site : Site E) : Option NodeId × Pass E :=
  match s.back.head?, s.front.head? with
  | none, _ => (site.before, s)
  | some _, some e =>
    let found := s.find site e .last
    (found.2.document.nextSibling? found.1, found.2)
  | some e, none =>
    let found := s.find site e .first
    (some found.1, found.2)

/-- Places all new entries, when none of the old ones is left. -/
def placeRest (s : Pass E) (site : Site E) : Pass E :=
  let gap := s.gap site
  { gap.2.insertAll site s.new gap.1 with new := [], front := s.new.reverse ++ s.front }

/-- Removes all old entries, when no new one is left. -/
def removeRest (s : Pass E) (site : Site E) : Pass E :=
  { s.old.foldl (fun s e => s.remove site e) s with old := [] }

@[simp] theorem old_insertAll (s : Pass E) (site : Site E) (entries : List E)
    (reference : Option NodeId) : (s.insertAll site entries reference).old = s.old := by
  induction entries generalizing s with
  | nil => rfl
  | cons e rest ih => exact ih (s.insert site e reference)

@[simp] theorem back_insertAll (s : Pass E) (site : Site E) (entries : List E)
    (reference : Option NodeId) : (s.insertAll site entries reference).back = s.back := by
  induction entries generalizing s with
  | nil => rfl
  | cons e rest ih => exact ih (s.insert site e reference)

@[simp] theorem old_gap (s : Pass E) (site : Site E) : (s.gap site).2.old = s.old := by
  unfold gap
  split <;> rfl

@[simp] theorem back_gap (s : Pass E) (site : Site E) : (s.gap site).2.back = s.back := by
  unfold gap
  split <;> rfl

theorem target_foldl_remove (s : Pass E) (site : Site E) (entries : List E) :
    (entries.foldl (fun s e => s.remove site e) s).target = s.target := by
  induction entries generalizing s with
  | nil => rfl
  | cons e rest ih => exact ih (s.remove site e)

theorem new_foldl_remove (s : Pass E) (site : Site E) (entries : List E) :
    (entries.foldl (fun s e => s.remove site e) s).new = s.new := by
  induction entries generalizing s with
  | nil => rfl
  | cons e rest ih => exact ih (s.remove site e)

theorem dropLast_append_getLastD (n : E) (ns : List E) :
    (n :: ns).dropLast ++ [ns.getLastD n] = n :: ns := by
  induction ns generalizing n with
  | nil => rfl
  | cons m rest ih =>
    rw [List.getLastD_cons, List.dropLast_cons_of_ne_nil (List.cons_ne_nil m rest),
      List.cons_append, ih m]

variable [DecidableEq E]

/-- Deals with the last entry on both sides. An old one that is in the new list stays for later use,
and so the new one is inserted; otherwise the new one takes its place. -/
def exchangeLast (s : Pass E) (site : Site E) (o n : E) : Pass E :=
  let known := match s.index with
    | some index => (index.position? o).isSome
    | none => false
  let done :=
    if known then
      match s.back.head? with
      | some e =>
        let found := s.find site e .first
        found.2.insert site n (some found.1)
      | none => s.insert site n site.before
    else s.replace site n o
  { done with old := [], new := [], front := n :: s.front }

/-- Exchanges the entries at the two ends: `o` and `z` are the first and last old ones, which are
the last and the first new ones. -/
def swapEnds (s : Pass E) (site : Site E) (o z : E) : Pass E :=
  let last := s.find site z .remove
  let afterLast := last.2.document.nextSibling? last.1
  let moved := last.2.find site z .insert
  let first := moved.2.find site o .remove
  let afterFirst := first.2.document.nextSibling? first.1
  let there := { first.2 with
    document := first.2.document.insertBefore site.container moved.1 afterFirst }
  { there.insert site o afterLast with
    old := s.old.tail.dropLast
    new := s.new.tail.dropLast
    front := z :: s.front
    back := o :: s.back
    swaps := s.swaps + 1 }

/-- Deals with the first old entry `o` by its position in the new list. An entry that is not in it
is removed. If `o` starts a run that also stands in the new list and is longer than what comes
before it there, that is placed in front of the run; otherwise the next new entry `n` takes the
place of `o`. An entry whose position has been passed is in its place already. -/
def lookUp (s : Pass E) (site : Site E) (o n : E) : Pass E :=
  let index := s.index.getD ⟨s.new, s.settled⟩
  let s := { s with index := some index }
  match index.position? o with
  | none => { s.remove site o with old := s.old.tail }
  | some i =>
    if s.settled < i ∧ i < s.settled + s.new.length then
      let ahead := i - s.settled
      if ahead < index.runLength (i + 1) s.old.tail + 1 then
        let found := s.find site o .first
        let placed := found.2.insertAll site (s.new.take ahead) (some found.1)
        { placed with
          new := s.new.drop ahead
          front := (s.new.take ahead).reverse ++ s.front }
      else
        { s.replace site n o with
          old := s.old.tail
          new := s.new.tail
          front := n :: s.front }
    else { s with old := s.old.tail }

/-- Deals with one or more entries. -/
def step (s : Pass E) (site : Site E) : Pass E :=
  match s.old, s.new with
  | [], _ => s.placeRest site
  | _ :: _, [] => s.removeRest site
  | o :: os, n :: ns =>
    if o = n then { s with old := os, new := ns, front := n :: s.front }
    else if os.getLastD o = ns.getLastD n then
      { s with
        old := (o :: os).dropLast
        new := (n :: ns).dropLast
        back := ns.getLastD n :: s.back }
    else if os.isEmpty && ns.isEmpty then s.exchangeLast site o n
    else if o = ns.getLastD n ∧ n = os.getLastD o then s.swapEnds site o n
    else s.lookUp site o n

theorem remaining_lookUp_lt (s : Pass E) (site : Site E) {o n : E} {os ns : List E}
    (ho : s.old = o :: os) (hn : s.new = n :: ns) :
    (s.lookUp site o n).remaining < s.remaining := by
  unfold lookUp
  dsimp only
  split
  · simp [remaining, remove, find, ho]
  · rename_i i _
    split
    · rename_i hi
      split
      · have hlen : s.settled < i ∧ i < s.settled + s.new.length := hi
        simp only [remaining, old_insertAll, List.length_drop, find]
        omega
      · simp only [remaining, ho, hn, List.tail_cons, List.length_cons]
        omega
    · simp [remaining, ho]

/-- A step leaves fewer entries to be dealt with. -/
theorem remaining_step_lt (s : Pass E) (site : Site E) (h : ¬ s.isDone) :
    (s.step site).remaining < s.remaining := by
  unfold step
  split
  · rename_i ho
    have hnew : s.new ≠ [] := fun hn => h (by simp [isDone, ho, hn])
    have := List.length_pos_iff.2 hnew
    simpa [remaining, placeRest, ho] using this
  · rename_i o os ho hn
    simp only [remaining, removeRest, new_foldl_remove, ho, hn, List.length_cons, List.length_nil]
    omega
  · rename_i o os n ns ho hn
    split
    · simp only [remaining, ho, hn, List.length_cons]
      omega
    · split
      · simp only [remaining, ho, hn, List.length_dropLast, List.length_cons]
        omega
      · split
        · simp only [remaining, exchangeLast, ho, hn, List.length_cons, List.length_nil]
          omega
        · split
          · simp only [remaining, swapEnds, ho, hn, List.tail_cons, List.length_dropLast,
              List.length_cons]
            omega
          · exact remaining_lookUp_lt s site ho hn

theorem back_exchangeLast (s : Pass E) (site : Site E) (o n : E) :
    (s.exchangeLast site o n).back = s.back := by
  unfold exchangeLast
  dsimp only
  generalize (match s.index with
    | some index => (index.position? o).isSome
    | none => false) = known
  cases known with
  | true => cases s.back.head? <;> rfl
  | false => rfl

theorem target_exchangeLast (s : Pass E) (site : Site E) (o : E) {n : E} (hn : s.new = [n]) :
    (s.exchangeLast site o n).target = s.target := by
  have hfront : (s.exchangeLast site o n).front = n :: s.front := rfl
  have hnew : (s.exchangeLast site o n).new = [] := rfl
  simp [target, back_exchangeLast, hfront, hnew, hn]

theorem target_lookUp (s : Pass E) (site : Site E) (o : E) {n : E} {ns : List E}
    (hn : s.new = n :: ns) : (s.lookUp site o n).target = s.target := by
  unfold lookUp
  dsimp only
  split
  · rfl
  · split
    · split
      · simp only [target, find, back_insertAll, List.reverse_append, List.reverse_reverse,
          List.append_assoc]
        rw [← List.append_assoc (List.take _ _), List.take_append_drop]
      · simp [target, replace, find, hn]
    · rfl

/-- A step neither adds to the new list nor takes from it. -/
theorem target_step (s : Pass E) (site : Site E) : (s.step site).target = s.target := by
  unfold step
  split
  · simp [target, placeRest]
  · exact target_foldl_remove s site s.old
  · rename_i o os n ns ho hn
    have hlast := dropLast_append_getLastD n ns
    split
    · simp [target, hn]
    · split
      · have hback : ∀ back : List E,
            (n :: ns).dropLast ++ ns.getLastD n :: back = n :: ns ++ back := by
          intro back
          rw [← hlast, List.append_assoc, List.singleton_append, hlast]
        simp only [target, hn, List.append_assoc, hback]
      · split
        · rename_i hempty
          simp only [Bool.and_eq_true, List.isEmpty_iff] at hempty
          exact target_exchangeLast s site o (by rw [hn, hempty.2])
        · split
          · rename_i hne _ _ hswap
            have hns : ns ≠ [] := fun h => hne (by rw [hswap.1, h]; rfl)
            rw [List.dropLast_cons_of_ne_nil hns, ← hswap.1] at hlast
            simp only [target, swapEnds, hn, List.tail_cons, List.reverse_cons, List.append_assoc]
            rw [← hlast]
            simp
          · exact target_lookUp s site o hn

/-- Deals with all entries. -/
def run (s : Pass E) (site : Site E) : Pass E :=
  if _h : s.isDone then s else (s.step site).run site
termination_by s.remaining
decreasing_by exact remaining_step_lt s site _h

theorem target_run (s : Pass E) (site : Site E) : (s.run site).target = s.target := by
  fun_induction run s site with
  | case1 => rfl
  | case2 s _ ih => rw [ih, target_step]

theorem isDone_run (s : Pass E) (site : Site E) : (s.run site).isDone = true := by
  fun_induction run s site with
  | case1 s h => exact h
  | case2 s _ ih => exact ih

/-- When every entry has been dealt with, the settled ones are those of the new list. -/
theorem result_run (s : Pass E) (site : Site E) : (s.run site).result = s.target := by
  have hdone := isDone_run s site
  simp only [isDone, Bool.and_eq_true, List.isEmpty_iff] at hdone
  rw [← target_run s site, target, hdone.2, List.append_nil, result]

end Pass

/-- Changes the children of a container that stand for `old` to stand for `new`. -/
def Document.reconcile {E : Type} [DecidableEq E] (d : Document) (site : Site E)
    (old new : List E) : Pass E :=
  (Pass.start d old new).run site

end LiveMarkup
