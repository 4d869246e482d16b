import LiveMarkup.Proofs.Document.Positions
/-!
# Positions stay in bounds

A reconciliation by positions goes along with a `Pass` (`Counter.Follows`): the positions bound the entries that the
pass still has, and what is settled in front has the length of the first position in the new list. So whatever a
turn reads is in the lists, each turn does what `Pass.step` does (`Counter.Follows.turn?_eq`), and all of them together
what `Pass.run` does (`Counter.Follows.run?_eq`).

Which branch a turn takes depends on the two lists alone and not on what is found or done. The positions are therefore in
bounds on any ground (`Ground.Parallels.any`), while on that of a site the same argument says that the document is
changed in the same way (`Ground.Parallels.refl`). Both are put together in `reconcile_in_bounds`.
-/

namespace LiveMarkup

variable {E N N' W W' : Type} {site : Site E} {g : Ground E N W} {g' : Ground E N' W'} {a b l part : List E}
  {o n z e : E} {os ns : List E} {i j k stop : Nat}

/-! ### Grounds -/

/-- What is done on one ground goes along with what is done on another one: `World` relates their states and `Ref`
their references to nodes. -/
structure Ground.Parallels (g : Ground E N W) (g' : Ground E N' W') (World : W → W' → Prop)
    (Ref : Option N → Option N' → Prop) : Prop where
  before : Ref g.before g'.before
  ref_find : ∀ {w w'} e access, World w w' → Ref (some (g.find e access w).1) (some (g'.find e access w').1)
  find : ∀ {w w'} e access, World w w' → World (g.find e access w).2 (g'.find e access w').2
  nextSibling? : ∀ {w w' n n'}, World w w' → Ref (some n) (some n') →
    Ref (g.nextSibling? w n) (g'.nextSibling? w' n')
  insertBefore : ∀ {w w' n n' r r'}, World w w' → Ref (some n) (some n') → Ref r r' →
    World (g.insertBefore w n r) (g'.insertBefore w' n' r')
  removeChild : ∀ {w w' n n'}, World w w' → Ref (some n) (some n') → World (g.removeChild w n) (g'.removeChild w' n')
  replaceChild : ∀ {w w' n n' m m'}, World w w' → Ref (some n) (some n') → Ref (some m) (some m') →
    World (g.replaceChild w n m) (g'.replaceChild w' n' m')

namespace Ground.Parallels

variable {World : W → W' → Prop} {Ref : Option N → Option N' → Prop} {w : W} {w' : W'} {r : Option N} {r' : Option N'}

/-- A ground goes along with itself. -/
theorem refl (g : Ground E N W) : g.Parallels g Eq Eq where
  before := rfl
  ref_find := by
    rintro w _ e access rfl
    rfl
  find := by
    rintro w _ e access rfl
    rfl
  nextSibling? := by
    rintro w _ n _ rfl ⟨⟩
    rfl
  insertBefore := by
    rintro w _ n _ r _ rfl ⟨⟩ rfl
    rfl
  removeChild := by
    rintro w _ n _ rfl ⟨⟩
    rfl
  replaceChild := by
    rintro w _ n _ m _ rfl ⟨⟩ ⟨⟩
    rfl

/-- As long as nothing is asked of what comes about, any two grounds go along with each other. -/
theorem any (g : Ground E N W) (g' : Ground E N' W') : g.Parallels g' (fun _ _ => True) fun _ _ => True :=
  ⟨trivial, fun _ _ _ => trivial, fun _ _ _ => trivial, fun _ _ => trivial, fun _ _ _ => trivial, fun _ _ => trivial,
    fun _ _ _ => trivial⟩

theorem insert (h : g.Parallels g' World Ref) (hw : World w w') (hr : Ref r r') (e : E) :
    World (g.insert w e r) (g'.insert w' e r') :=
  h.insertBefore (h.find e .insert hw) (h.ref_find e .insert hw) hr

theorem remove (h : g.Parallels g' World Ref) (hw : World w w') (e : E) : World (g.remove w e) (g'.remove w' e) :=
  h.removeChild (h.find e .remove hw) (h.ref_find e .remove hw)

theorem replace (h : g.Parallels g' World Ref) (hw : World w w') (new old : E) :
    World (g.replace w new old) (g'.replace w' new old) :=
  h.replaceChild (h.find old .remove (h.find new .insert hw)) (h.ref_find new .insert hw)
    (h.ref_find old .remove (h.find new .insert hw))

end Ground.Parallels

instance : Inhabited (Site E) :=
  ⟨default, none, fun _ _ d => (default, d)⟩

/-- What a pass has done so far, as a state of the ground of its site. -/
def Pass.scene (s : Pass E) : Document × List (Access × E) :=
  (s.document, s.accesses)

namespace Pass

/-- Inserting entries changes the scene alone. -/
theorem exists_insertAll_eq (s : Pass E) (site : Site E) (entries : List E) (reference : Option NodeId) :
    ∃ document accesses, s.insertAll site entries reference = { s with document, accesses } := by
  induction entries generalizing s with
  | nil => exact ⟨s.document, s.accesses, rfl⟩
  | cons e rest ih => exact ih (s.insert site e reference)

/-- Removing entries changes the scene alone. -/
theorem exists_foldl_remove_eq (s : Pass E) (site : Site E) (entries : List E) :
    ∃ document accesses, entries.foldl (fun s e => s.remove site e) s = { s with document, accesses } := by
  induction entries generalizing s with
  | nil => exact ⟨s.document, s.accesses, rfl⟩
  | cons e rest ih => exact ih (s.remove site e)

/-- Looking for the gap changes the scene alone. -/
theorem exists_gap_eq (s : Pass E) (site : Site E) :
    ∃ document accesses, (s.gap site).2 = { s with document, accesses } := by
  unfold gap
  split
  · exact ⟨s.document, s.accesses, rfl⟩
  · exact ⟨_, _, rfl⟩
  · exact ⟨_, _, rfl⟩

end Pass

theorem Counter.minus?_of_le (h : j ≤ i) : minus? i j = some (i - j) :=
  if_pos h

/-! ### Parts of a list -/

/-- A part of a list begins at one position and ends in front of another one. -/
def IsWindow (l : List E) (i j : Nat) (part : List E) : Prop :=
  ∃ front back, l = front ++ part ++ back ∧ i = front.length ∧ j = front.length + part.length

namespace IsWindow

theorem stop_eq (h : IsWindow l i j part) : j = i + part.length := by
  obtain ⟨front, back, -, rfl, rfl⟩ := h
  rfl

theorem minus?_eq (h : IsWindow l i j part) : Counter.minus? j i = some part.length := by
  obtain ⟨front, back, -, rfl, rfl⟩ := h
  exact (Counter.minus?_of_le (Nat.le_add_right _ _)).trans (congrArg some (Nat.add_sub_cancel_left ..))

theorem start_le (h : IsWindow l i j part) : i ≤ j := by
  obtain ⟨front, back, -, rfl, rfl⟩ := h
  exact Nat.le_add_right _ _

theorem stop_le (h : IsWindow l i j part) : j ≤ l.length := by
  obtain ⟨front, back, rfl, rfl, rfl⟩ := h
  simp

theorem lt (h : IsWindow l i j (e :: part)) : i < j := by
  rw [h.stop_eq]
  exact Nat.lt_add_of_pos_right (Nat.succ_pos _)

theorem getElem? (h : IsWindow l i j part) (hk : k < part.length) : l[i + k]? = part[k]? := by
  obtain ⟨front, back, rfl, rfl, rfl⟩ := h
  rw [List.append_assoc, List.getElem?_append_right (Nat.le_add_right _ _), Nat.add_sub_cancel_left,
    List.getElem?_append_left hk]

theorem first (h : IsWindow l i j (e :: part)) : l[i]? = some e := by
  have := h.getElem? (k := 0) (Nat.succ_pos _)
  rwa [Nat.add_zero, List.getElem?_cons_zero] at this

theorem last (h : IsWindow l i j (e :: part)) : l[i + part.length]? = some (part.getLastD e) := by
  have hlast : (e :: part).getLast? = some (part.getLastD e) := by
    rw [List.getLast?_cons, List.getLastD_eq_getLast?]
  rw [h.getElem? (Nat.lt_succ_self _)]
  rwa [List.getLast?_eq_getElem?] at hlast

theorem minus?_one (h : IsWindow l i j (e :: part)) : Counter.minus? j 1 = some (i + part.length) := by
  rw [h.stop_eq, List.length_cons, ← Nat.add_assoc]
  exact if_pos (Nat.succ_pos _)

theorem tail (h : IsWindow l i j (e :: part)) : IsWindow l (i + 1) j part := by
  obtain ⟨front, back, rfl, rfl, rfl⟩ := h
  exact ⟨front ++ [e], back, by simp, by simp, by simp; omega⟩

theorem dropLast (h : IsWindow l i j (part ++ [e])) : IsWindow l i (i + part.length) part := by
  obtain ⟨front, back, rfl, rfl, rfl⟩ := h
  exact ⟨front, e :: back, by simp, rfl, rfl⟩

theorem set (h : IsWindow l i j (part ++ [e])) (e' : E) :
    IsWindow (l.set (i + part.length) e') i (i + part.length) part := by
  obtain ⟨front, back, rfl, rfl, rfl⟩ := h
  refine ⟨front, e' :: back, ?_, rfl, rfl⟩
  have hsplit : front ++ (part ++ [e]) ++ back = (front ++ part) ++ e :: back := by simp
  rw [hsplit, ← List.length_append, List.set_append_right _ _ (Nat.le_refl _), Nat.sub_self, List.set_cons_zero]

theorem take (h : IsWindow l i j part) (hk : k ≤ part.length) : IsWindow l i (i + k) (part.take k) := by
  obtain ⟨front, back, rfl, rfl, rfl⟩ := h
  refine ⟨front, part.drop k ++ back, ?_, rfl, by rw [List.length_take_of_le hk]⟩
  rw [List.append_assoc, List.append_assoc, ← List.append_assoc (part.take k), List.take_append_drop]

theorem empty (h : IsWindow l i j part) : IsWindow l j j [] := by
  obtain ⟨front, back, rfl, rfl, rfl⟩ := h
  exact ⟨front ++ part, back, by simp, by simp, by simp⟩

theorem between? (h : IsWindow l i j part) : Counter.between? l i j = some part := by
  have hle := h.stop_le
  obtain ⟨front, back, rfl, rfl, rfl⟩ := h
  rw [Counter.between?, if_pos ⟨Nat.le_add_right _ _, hle⟩, List.take_left' List.length_append,
    List.drop_left' rfl]

end IsWindow

/-! ### Going along with a pass -/

namespace Counter

variable {World : W → Document × List (Access × E) → Prop} {Ref : Option N → Option NodeId → Prop}
  {c : Counter E W} {s : Pass E} {r : Option N} {r' : Option NodeId}

/-- A counter has come as far as a pass. The old list has so many entries, `World` relates the two states. -/
structure Follows (World : W → Document × List (Access × E) → Prop) (size : Nat) (c : Counter E W) (s : Pass E) :
    Prop where
  size : c.old.length = size
  old : IsWindow c.old c.oldStart c.oldEnd s.old
  newStart : c.newStart = s.settled
  newEnd : c.newEnd = s.settled + s.new.length
  index : c.index = s.index
  swaps : c.swaps = s.swaps
  world : World c.world s.scene

/-- Entries are inserted one after another. -/
theorem placeUpTo?_eq (hg : g.Parallels site.ground World Ref) (hnew : IsWindow b c.newStart stop part)
    (hw : World c.world s.scene) (hr : Ref r r') :
    ∃ w, c.placeUpTo? g b r stop = some { c with newStart := stop, world := w } ∧
      World w (s.insertAll site part r').scene := by
  induction part generalizing c s with
  | nil =>
    have hstop : stop = c.newStart := hnew.stop_eq
    subst hstop
    refine ⟨c.world, ?_, hw⟩
    rw [placeUpTo?, if_neg (Nat.lt_irrefl _)]
  | cons e part ih =>
    obtain ⟨w, hplace, hworld⟩ := ih
      (c := { c with newStart := c.newStart + 1, world := g.insert c.world e r })
      (s := s.insert site e r') hnew.tail (hg.insert hw hr e)
    refine ⟨w, ?_, hworld⟩
    rw [placeUpTo?, if_pos hnew.lt, hnew.first]
    exact hplace

/-- Entries are removed one after another. -/
theorem removeRest?_eq (hg : g.Parallels site.ground World Ref) (hold : IsWindow c.old c.oldStart c.oldEnd part)
    (hw : World c.world s.scene) :
    ∃ w, c.removeRest? g = some { c with oldStart := c.oldEnd, world := w } ∧
      World w (part.foldl (fun s e => s.remove site e) s).scene := by
  induction part generalizing c s with
  | nil =>
    have hstop : c.oldEnd = c.oldStart := hold.stop_eq
    refine ⟨c.world, ?_, hw⟩
    rw [removeRest?, if_neg (Nat.not_lt_of_le (Nat.le_of_eq hstop))]
    exact congrArg (fun i => some { c with oldStart := i }) hstop.symm
  | cons e part ih =>
    obtain ⟨w, hremove, hworld⟩ := ih
      (c := { c with oldStart := c.oldStart + 1, world := g.remove c.world e })
      (s := s.remove site e) hold.tail (hg.remove hw e)
    refine ⟨w, ?_, hworld⟩
    rw [removeRest?, if_pos hold.lt, hold.first]
    exact hremove

namespace Follows

variable {size : Nat}

theorem new (h : Follows World size c s) (hb : s.target = b) : IsWindow b c.newStart c.newEnd s.new := by
  refine ⟨s.front.reverse, s.back, hb.symm, ?_, ?_⟩
  · rw [h.newStart, List.length_reverse, Pass.settled]
  · rw [h.newEnd, List.length_reverse, Pass.settled]

/-- What is settled behind the entries that are still to be placed. -/
theorem back (h : Follows World size c s) (hb : s.target = b) : b.drop c.newEnd = s.back := by
  rw [h.newEnd, ← hb, Pass.target]
  exact List.drop_left' (by rw [List.length_append, List.length_reverse, Pass.settled])

/-- Something is settled there just in case the new list goes on behind the positions. -/
theorem newEnd_lt_iff (h : Follows World size c s) (hb : s.target = b) : c.newEnd < b.length ↔ s.back ≠ [] := by
  rw [← h.back hb, Ne, List.drop_eq_nil_iff, Nat.not_le]

theorem getElem?_newEnd (h : Follows World size c s) (hb : s.target = b) : b[c.newEnd]? = s.back.head? := by
  rw [← h.back hb, List.head?_drop]

theorem remaining_eq (h : Follows World size c s) : c.remaining = s.remaining := by
  have hold := h.old.stop_eq
  have hnew := h.newEnd
  rw [← h.newStart] at hnew
  rw [remaining, Pass.remaining]
  omega

theorem isDone_eq (h : Follows World size c s) : c.isDone = s.isDone := by
  have hold := h.old.stop_eq
  have hnew := h.newEnd
  rw [← h.newStart] at hnew
  rw [Bool.eq_iff_iff]
  simp only [isDone, Pass.isDone, Bool.not_eq_true', Bool.or_eq_false_iff, decide_eq_false_iff_not,
    Bool.and_eq_true, List.isEmpty_iff, ← List.length_eq_zero_iff]
  omega

/-! ### What a turn does -/

/-- The first entries on both sides have been dealt with. -/
theorem advance (h : Follows World size c s) (ho : s.old = o :: os) (hn : s.new = n :: ns) {s' : Pass E}
    {index : Option (Index E)} {w : W} (hold : s'.old = os) (hnew : s'.new = ns) (hfront : s'.front = n :: s.front)
    (hindex : index = s'.index) (hswaps : s'.swaps = s.swaps) (hw : World w s'.scene) :
    Follows World size { c with
      oldStart := c.oldStart + 1
      newStart := c.newStart + 1
      index
      world := w } s' where
  size := h.size
  old := by
    rw [hold]
    exact (ho ▸ h.old).tail
  newStart := by
    rw [Pass.settled, hfront, List.length_cons, h.newStart, Pass.settled]
  newEnd := by
    rw [Pass.settled, hfront, hnew, List.length_cons]
    show c.newEnd = _
    rw [h.newEnd, hn, List.length_cons, Pass.settled]
    omega
  index := hindex
  swaps := h.swaps.trans hswaps.symm
  world := hw

/-- The first old entry has been dealt with. -/
theorem drop (h : Follows World size c s) (ho : s.old = o :: os) {s' : Pass E} {index : Option (Index E)} {w : W}
    (hold : s'.old = os) (hnew : s'.new = s.new) (hfront : s'.front = s.front) (hindex : index = s'.index)
    (hswaps : s'.swaps = s.swaps) (hw : World w s'.scene) :
    Follows World size { c with oldStart := c.oldStart + 1, index, world := w } s' where
  size := h.size
  old := by
    rw [hold]
    exact (ho ▸ h.old).tail
  newStart := by
    rw [Pass.settled, hfront]
    exact h.newStart
  newEnd := by
    rw [Pass.settled, hfront, hnew]
    exact h.newEnd
  index := hindex
  swaps := h.swaps.trans hswaps.symm
  world := hw

/-- The last entries on both sides have been dealt with. -/
theorem retreat (h : Follows World size c s) (ho : s.old = os ++ [o]) {s' : Pass E} (hold : s'.old = os)
    (hnew : s'.new = ns) (hfront : s'.front = s.front) (hindex : s'.index = s.index) (hswaps : s'.swaps = s.swaps)
    (hw : World c.world s'.scene) :
    Follows World size { c with
      oldEnd := c.oldStart + os.length
      newEnd := c.newStart + ns.length } s' where
  size := h.size
  old := by
    rw [hold]
    exact (ho ▸ h.old).dropLast
  newStart := by
    rw [Pass.settled, hfront]
    exact h.newStart
  newEnd := by
    rw [Pass.settled, hfront, hnew]
    show c.newStart + _ = _
    rw [h.newStart, Pass.settled]
  index := h.index.trans hindex.symm
  swaps := h.swaps.trans hswaps.symm
  world := hw

theorem gap?_eq (hg : g.Parallels site.ground World Ref) (h : Follows World size c s) (hb : s.target = b) :
    ∃ r w, c.gap? g b = some (r, w) ∧ Ref r (s.gap site).1 ∧ World w (s.gap site).2.scene := by
  have hlt := h.newEnd_lt_iff hb
  have hfirst := h.getElem?_newEnd hb
  unfold gap? Pass.gap
  cases hbehind : s.back with
  | nil =>
    rw [if_neg (by rw [hlt, hbehind]; exact fun hne => hne rfl)]
    exact ⟨_, _, rfl, hg.before, h.world⟩
  | cons e back =>
    rw [if_pos (by rw [hlt, hbehind]; exact List.cons_ne_nil e back)]
    cases hahead : s.front with
    | nil =>
      rw [if_neg (by rw [h.newStart, Pass.settled, hahead]; exact Nat.lt_irrefl 0), hfirst, hbehind]
      exact ⟨_, _, rfl, hg.ref_find e .first h.world, hg.find e .first h.world⟩
    | cons e' front =>
      have hstart : c.newStart = front.length + 1 := by
        rw [h.newStart, Pass.settled, hahead, List.length_cons]
      have hlast : b[front.length]? = some e' := by
        rw [← hb, Pass.target, hahead, List.reverse_cons, List.append_assoc, List.append_assoc,
          List.getElem?_append_right (Nat.le_of_eq List.length_reverse), List.length_reverse, Nat.sub_self]
        rfl
      have hminus : minus? c.newStart 1 = some front.length := by
        rw [hstart]
        exact minus?_of_le (Nat.succ_pos _)
      rw [if_pos (by rw [hstart]; exact Nat.succ_pos _), hminus]
      simp only [Option.bind_eq_bind, Option.bind_some, Option.pure_def, hlast]
      exact ⟨_, _, rfl, hg.nextSibling? (hg.find e' .last h.world) (hg.ref_find e' .last h.world),
        hg.find e' .last h.world⟩

theorem placeRest?_eq (hg : g.Parallels site.ground World Ref) (h : Follows World size c s) (hb : s.target = b) :
    ∃ next, c.placeRest? g b = some next ∧ Follows World size next (s.placeRest site) := by
  obtain ⟨r, w, hgap, hr, hw⟩ := h.gap?_eq hg hb
  obtain ⟨w', hplace, hw'⟩ := placeUpTo?_eq (c := { c with world := w }) hg (h.new hb) hw hr
  have hend : c.newEnd = (s.new.reverse ++ s.front).length := by
    rw [h.newEnd, List.length_append, List.length_reverse, Pass.settled, Nat.add_comm]
  refine ⟨{ c with newStart := c.newEnd, world := w' }, ?_, ?_⟩
  · rw [placeRest?, hgap]
    exact hplace
  · obtain ⟨document, accesses, hbooks⟩ := s.exists_gap_eq site
    obtain ⟨document', accesses', hplaced⟩ := (s.gap site).2.exists_insertAll_eq site s.new (s.gap site).1
    rw [hplaced, hbooks] at hw'
    rw [Pass.placeRest, hplaced, hbooks]
    exact ⟨h.size, h.old, hend, hend, h.index, h.swaps, hw'⟩

theorem removeRest?_eq (hg : g.Parallels site.ground World Ref) (h : Follows World size c s) :
    ∃ next, c.removeRest? g = some next ∧ Follows World size next (s.removeRest site) := by
  obtain ⟨w, hremove, hw⟩ := Counter.removeRest?_eq hg h.old h.world
  obtain ⟨document, accesses, hremoved⟩ := s.exists_foldl_remove_eq site s.old
  refine ⟨_, hremove, ?_⟩
  rw [hremoved] at hw
  rw [Pass.removeRest, hremoved]
  exact ⟨h.size, h.old.empty, h.newStart, h.newEnd, h.index, h.swaps, hw⟩

/-- Two entries on each side at least are exchanged. -/
theorem swapEnds?_eq (hg : g.Parallels site.ground World Ref) (h : Follows World size c s) (hb : s.target = b)
    (ho : s.old = o :: (os ++ [z])) (hn : s.new = z :: (ns ++ [o])) :
    ∃ next, c.swapEnds? g b = some next ∧ Follows World size next (s.swapEnds site o z) := by
  have hold := ho ▸ h.old
  have hnew := hn ▸ h.new hb
  have holdLast : c.old[c.oldStart + (os ++ [z]).length]? = some z := by
    rw [hold.last, List.getLastD_concat]
  have hnewLast : b[c.newStart + (ns ++ [o]).length]? = some o := by
    rw [hnew.last, List.getLastD_concat]
  have hput : c.put? (c.oldStart + (os ++ [z]).length) o
      = some (c.old.set (c.oldStart + (os ++ [z]).length) o) :=
    if_pos (List.getElem?_eq_some_iff.1 holdLast).1
  let last := g.find z .remove c.world
  let moved := g.find z .insert last.2
  let first := g.find o .remove moved.2
  let there := g.insertBefore first.2 moved.1 (g.nextSibling? first.2 first.1)
  have hworld : World (g.insert there o (g.nextSibling? last.2 last.1)) (s.swapEnds site o z).scene := by
    have hlast := hg.find z .remove h.world
    have hmoved := hg.find z .insert hlast
    have hfirst := hg.find o .remove hmoved
    have hthere := hg.insertBefore hfirst (hg.ref_find z .insert hlast)
      (hg.nextSibling? hfirst (hg.ref_find o .remove hmoved))
    exact hg.insert hthere (hg.nextSibling? hlast (hg.ref_find z .remove h.world)) o
  have hstop : c.oldStart + (os ++ [z]).length = c.oldStart + 1 + os.length := by
    rw [List.length_append, List.length_singleton]
    omega
  refine ⟨{ c with
    old := c.old.set (c.oldStart + (os ++ [z]).length) o
    oldStart := c.oldStart + 1
    oldEnd := c.oldStart + (os ++ [z]).length
    newStart := c.newStart + 1
    newEnd := c.newStart + (ns ++ [o]).length
    world := g.insert there o (g.nextSibling? last.2 last.1)
    swaps := c.swaps + 1 }, ?_, ?_⟩
  · rw [swapEnds?, hold.minus?_one, hnew.minus?_one]
    simp only [Option.bind_eq_bind, Option.bind_some, Option.pure_def, holdLast, hnewLast, hold.first, hnew.first,
      hput]
    rfl
  · exact
      { size := List.length_set.trans h.size
        old := by
          show IsWindow (c.old.set _ o) (c.oldStart + 1) _ s.old.tail.dropLast
          rw [ho, List.tail_cons, List.dropLast_concat, hstop]
          exact hold.tail.set o
        newStart := congrArg (· + 1) h.newStart
        newEnd := by
          show c.newStart + (ns ++ [o]).length = s.front.length + 1 + s.new.tail.dropLast.length
          rw [h.newStart, hn, List.tail_cons, List.dropLast_concat, List.length_append, List.length_singleton,
            Pass.settled]
          omega
        index := h.index
        swaps := congrArg (· + 1) h.swaps
        world := hworld }

/-- What comes in front of a run in the new list is placed in front of it. -/
theorem placeRun?_eq (hg : g.Parallels site.ground World Ref) (h : Follows World size c s) (hb : s.target = b)
    (index : Index E) (o : E) (hlt : s.front.length < i) (hle : i ≤ s.front.length + s.new.length) :
    let indexed := { s with index := some index }
    let ahead := s.new.take (i - s.front.length)
    ∃ next, placeUpTo? g b (some (g.find o .first c.world).1) i
        { c with index := some index, world := (g.find o .first c.world).2 } = some next ∧
      Follows World size next { (indexed.find site o .first).2.insertAll site ahead
          (some (indexed.find site o .first).1) with
        new := s.new.drop (i - s.front.length)
        front := ahead.reverse ++ s.front } := by
  intro indexed ahead
  have hstart : c.newStart = s.front.length := h.newStart
  have hwindow : IsWindow b c.newStart i ahead := by
    have hstop : c.newStart + (i - s.front.length) = i := by
      rw [hstart, Nat.add_sub_cancel' (Nat.le_of_lt hlt)]
    have htaken := (h.new hb).take (k := i - s.front.length) (by omega)
    rwa [hstop] at htaken
  have hfound : Ref (some (g.find o .first c.world).1) (some (indexed.find site o .first).1) :=
    hg.ref_find o .first h.world
  obtain ⟨w, hplace, hw⟩ := placeUpTo?_eq
    (c := { c with index := some index, world := (g.find o .first c.world).2 })
    (s := (indexed.find site o .first).2) hg hwindow (hg.find o .first h.world) hfound
  refine ⟨_, hplace, ?_⟩
  have hlength : (ahead.reverse ++ s.front).length = i := by
    rw [List.length_append, List.length_reverse, List.length_take_of_le (by omega)]
    omega
  obtain ⟨document, accesses, hplaced⟩ := (indexed.find site o .first).2.exists_insertAll_eq site ahead
    (some (indexed.find site o .first).1)
  rw [hplaced] at hw
  rw [hplaced]
  exact
    { size := h.size
      old := h.old
      newStart := hlength.symm
      newEnd := by
        show c.newEnd = (ahead.reverse ++ s.front).length + (s.new.drop (i - s.front.length)).length
        rw [h.newEnd, hlength, List.length_drop, Pass.settled]
        omega
      index := rfl
      swaps := h.swaps
      world := hw }

/-! ### What there is at the ends -/

variable [DecidableEq E]

theorem sameFirst?_eq (h : Follows World size c s) (hb : s.target = b) (ho : s.old = o :: os)
    (hn : s.new = n :: ns) : c.sameFirst? b = some (decide (o = n)) := by
  have hold := ho ▸ h.old
  have hnew := hn ▸ h.new hb
  rw [sameFirst?, if_pos ⟨hold.lt, hnew.lt⟩, hold.first, hnew.first]
  rfl

theorem sameLast?_eq (h : Follows World size c s) (hb : s.target = b) (ho : s.old = o :: os)
    (hn : s.new = n :: ns) : c.sameLast? b = some (decide (os.getLastD o = ns.getLastD n)) := by
  have hold := ho ▸ h.old
  have hnew := hn ▸ h.new hb
  rw [sameLast?, if_pos ⟨hold.lt, hnew.lt⟩, hold.minus?_one, hnew.minus?_one]
  simp only [Option.bind_eq_bind, Option.bind_some, Option.pure_def, hold.last, hnew.last]

theorem same?_of_nil (h : Follows World size c s) (hnil : s.old = [] ∨ s.new = []) :
    c.sameFirst? b = some false ∧ c.sameLast? b = some false := by
  have hnone : ¬ (c.oldStart < c.oldEnd ∧ c.newStart < c.newEnd) := by
    rw [h.old.stop_eq, h.newEnd, h.newStart]
    rcases hnil with hnil | hnil <;> rw [hnil] <;> simp
  rw [sameFirst?, sameLast?, if_neg hnone, if_neg hnone]
  exact ⟨rfl, rfl⟩

/-- The last entries on both sides are exchanged or replaced. -/
theorem exchangeLast?_eq (hg : g.Parallels site.ground World Ref) (h : Follows World size c s) (hb : s.target = b)
    (ho : s.old = [o]) (hn : s.new = [n]) :
    ∃ next, c.exchangeLast? g b = some next ∧ Follows World size next (s.exchangeLast site o n) := by
  have hold : c.old[c.oldStart]? = some o := (ho ▸ h.old).first
  have hnew : b[c.newStart]? = some n := (hn ▸ h.new hb).first
  have hlt := h.newEnd_lt_iff hb
  have hfirst := h.getElem?_newEnd hb
  unfold exchangeLast? Pass.exchangeLast
  simp only [hold, hnew, h.index, Option.bind_eq_bind, Option.bind_some, Option.pure_def]
  cases hindex : s.index with
  | none =>
    exact ⟨_, rfl, h.advance ho hn rfl rfl rfl hindex.symm rfl (hg.replace h.world n o)⟩
  | some index =>
    by_cases hknown : (index.position? o).isSome = true
    · simp only [hknown, if_true]
      cases hbehind : s.back with
      | nil =>
        rw [if_neg (by rw [hlt, hbehind]; exact fun hne => hne rfl)]
        exact ⟨_, rfl, h.advance ho hn rfl rfl rfl hindex.symm rfl (hg.insert h.world hg.before n)⟩
      | cons e back =>
        rw [if_pos (by rw [hlt, hbehind]; exact List.cons_ne_nil e back), hfirst, hbehind]
        have hfound := hg.find e .first h.world
        exact ⟨_, rfl, h.advance ho hn rfl rfl rfl hindex.symm rfl
          (hg.insert hfound (hg.ref_find e .first h.world) n)⟩
    · simp only [hknown]
      exact ⟨_, rfl, h.advance ho hn rfl rfl rfl hindex.symm rfl (hg.replace h.world n o)⟩

/-- Entries at the two ends have each other's places. -/
theorem endsCrossed?_eq (h : Follows World size c s) (hb : s.target = b) (ho : s.old = o :: os)
    (hn : s.new = n :: ns) : c.endsCrossed? b = some (decide (o = ns.getLastD n) && decide (n = os.getLastD o)) := by
  have hold := ho ▸ h.old
  have hnew := hn ▸ h.new hb
  rw [endsCrossed?, hold.minus?_one, hnew.minus?_one, hold.first, hnew.first]
  simp only [Option.bind_eq_bind, Option.bind_some, Option.pure_def, hold.last, hnew.last]

/-- A run is counted to where it ends. -/
theorem runFrom?_eq (index : Index E) (c : Counter E W) (hold : IsWindow c.old i c.oldEnd part) (k : Nat) :
    runFrom? index c k i = some (index.runLength k part) := by
  induction part generalizing i k with
  | nil =>
    have hstop : c.oldEnd = i := hold.stop_eq
    rw [runFrom?, hstop, if_neg (Nat.lt_irrefl _)]
    rfl
  | cons e part ih =>
    rw [runFrom?, if_pos hold.lt, hold.first, Index.runLength]
    simp only [Option.bind_eq_bind, Option.bind_some, Option.pure_def]
    split
    · rw [ih hold.tail]
      rfl
    · rfl

/-- The first old entry is looked up. -/
theorem lookUp?_eq (hg : g.Parallels site.ground World Ref) (h : Follows World size c s) (hb : s.target = b)
    (ho : s.old = o :: os) (hn : s.new = n :: ns) :
    ∃ next, c.lookUp? g b = some next ∧ Follows World size next (s.lookUp site o n) := by
  have hold := ho ▸ h.old
  have hnew := h.new hb
  have hindex : c.index? b = some (s.index.getD ⟨s.new, s.settled⟩) := by
    rw [index?, h.index]
    cases s.index with
    | some index => rfl
    | none =>
      dsimp only
      rw [hnew.between?, h.newStart]
      rfl
  have hstart : c.newStart = s.front.length := h.newStart
  have hend : c.newEnd = s.front.length + s.new.length := h.newEnd
  have htail : s.old.tail = os := by rw [ho, List.tail_cons]
  unfold lookUp? Pass.lookUp
  rw [hindex]
  generalize s.index.getD ⟨s.new, s.settled⟩ = index
  simp only [Option.bind_eq_bind, Option.bind_some, Option.pure_def, hold.first, htail, Pass.settled]
  cases index.position? o with
  | none => exact ⟨_, rfl, h.drop ho rfl rfl rfl rfl rfl (hg.remove h.world o)⟩
  | some i =>
    by_cases hin : s.front.length < i ∧ i < s.front.length + s.new.length
    · have hrun := runFrom?_eq index { c with index := some index } hold.tail (i + 1)
      have hahead : minus? i c.newStart = some (i - s.front.length) := by
        rw [hstart]
        exact minus?_of_le (Nat.le_of_lt hin.1)
      simp only [if_pos hin, if_pos (show c.newStart < i ∧ i < c.newEnd by rwa [hstart, hend]), hrun, hahead,
        Option.bind_some]
      by_cases hlong : i - s.front.length < index.runLength (i + 1) os + 1
      · simp only [if_pos hlong]
        exact h.placeRun?_eq hg hb index o hin.1 (Nat.le_of_lt hin.2)
      · simp only [if_neg hlong, (hn ▸ hnew).first, Option.bind_some]
        exact ⟨_, rfl, h.advance ho hn rfl (by rw [hn]; rfl) rfl rfl rfl (hg.replace h.world n o)⟩
    · simp only [if_neg hin, if_neg (show ¬ (c.newStart < i ∧ i < c.newEnd) by rwa [hstart, hend])]
      exact ⟨_, rfl, h.drop ho rfl rfl rfl rfl rfl h.world⟩

/-- What a turn does as long as there are entries on both sides. -/
theorem turn?_eq_of_cons (hg : g.Parallels site.ground World Ref) (h : Follows World size c s) (hb : s.target = b)
    (ho : s.old = o :: os) (hn : s.new = n :: ns) :
    ∃ next, c.turn? g b = some next ∧ Follows World size next (s.step site) := by
  have hold := ho ▸ h.old
  have hnew := hn ▸ h.new hb
  have hoSplit := Pass.dropLast_append_getLastD o os
  have hnSplit := Pass.dropLast_append_getLastD n ns
  rw [turn?, Pass.step, ho, hn]
  simp only [h.sameFirst?_eq hb ho hn, h.sameLast?_eq hb ho hn, h.endsCrossed?_eq hb ho hn, hold.minus?_eq,
    hnew.minus?_eq, hold.minus?_one, hnew.minus?_one, Option.bind_eq_bind, Option.bind_some, Option.pure_def,
    decide_eq_true_eq, Bool.and_eq_true, if_neg (Nat.ne_of_gt hold.lt), if_neg (Nat.ne_of_gt hnew.lt)]
  by_cases hsame : o = n
  · simp only [if_pos hsame]
    exact ⟨_, rfl, h.advance ho hn rfl rfl rfl h.index rfl h.world⟩
  by_cases hends : os.getLastD o = ns.getLastD n
  · have hlength : os.length = (o :: os).dropLast.length := by rw [List.length_dropLast]; rfl
    have hlength' : ns.length = (n :: ns).dropLast.length := by rw [List.length_dropLast]; rfl
    simp only [if_neg hsame, if_pos hends]
    rw [hlength, hlength']
    exact ⟨_, rfl, h.retreat (ho.trans hoSplit.symm) rfl rfl rfl rfl rfl h.world⟩
  by_cases hone : os = [] ∧ ns = []
  · obtain ⟨rfl, rfl⟩ := hone
    simp only [if_neg hsame, if_neg hends]
    exact h.exchangeLast?_eq hg hb ho hn
  have hone' : ¬ ((o :: os).length = 1 ∧ (n :: ns).length = 1) := by
    simpa only [List.length_cons, Nat.add_eq_right, List.length_eq_zero_iff] using hone
  have hempty : ¬ (os.isEmpty = true ∧ ns.isEmpty = true) := by
    simpa only [List.isEmpty_iff] using hone
  by_cases hcrossed : o = ns.getLastD n ∧ n = os.getLastD o
  · -- With one entry on a side its two ends are the same, and so the first entries would be.
    have hos : os ≠ [] := fun hos => hsame (by rw [hcrossed.2, hos]; rfl)
    have hns : ns ≠ [] := fun hns => hsame (by rw [hcrossed.1, hns]; rfl)
    rw [List.dropLast_cons_of_ne_nil hos, ← hcrossed.2] at hoSplit
    rw [List.dropLast_cons_of_ne_nil hns, ← hcrossed.1] at hnSplit
    simp only [if_neg hsame, if_neg hends, if_neg hone', if_neg hempty, if_pos hcrossed]
    exact h.swapEnds?_eq hg hb (ho.trans hoSplit.symm) (hn.trans hnSplit.symm)
  · simp only [if_neg hsame, if_neg hends, if_neg hone', if_neg hempty, if_neg hcrossed]
    exact h.lookUp?_eq hg hb ho hn

/-- A turn always has a result, and does what a step of the pass does. -/
theorem turn?_eq (hg : g.Parallels site.ground World Ref) (h : Follows World size c s) (hb : s.target = b) :
    ∃ next, c.turn? g b = some next ∧ Follows World size next (s.step site) := by
  have hold := h.old.stop_eq
  have hnew := (h.new hb).stop_eq
  cases ho : s.old with
  | nil =>
    obtain ⟨hfirst, hlast⟩ := h.same?_of_nil (b := b) (.inl ho)
    have hempty : c.oldEnd = c.oldStart := by
      rw [hold, ho]
      rfl
    rw [turn?, Pass.step, ho]
    simp only [hfirst, hlast, Option.bind_eq_bind, Option.bind_some, Bool.false_eq_true, if_false, if_pos hempty]
    exact h.placeRest?_eq hg hb
  | cons o os =>
    cases hn : s.new with
    | nil =>
      obtain ⟨hfirst, hlast⟩ := h.same?_of_nil (b := b) (.inr hn)
      have hmore : c.oldStart < c.oldEnd := (ho ▸ h.old).lt
      have hempty : c.newEnd = c.newStart := by
        rw [hnew, hn]
        rfl
      rw [turn?, Pass.step, ho, hn]
      simp only [hfirst, hlast, Option.bind_eq_bind, Option.bind_some, Bool.false_eq_true, if_false,
        if_neg (Nat.ne_of_gt hmore), if_pos hempty]
      exact h.removeRest?_eq hg
    | cons n ns => exact h.turn?_eq_of_cons hg hb ho hn

/-- Where the pass takes a step, the positions come closer together. -/
theorem remaining_lt (h : Follows World size c s) (hmore : ¬ s.isDone) {next : Counter E W}
    (hnext : Follows World size next (s.step site)) : next.remaining < c.remaining := by
  rw [hnext.remaining_eq, h.remaining_eq]
  exact s.remaining_step_lt site hmore

/-- As long as there is something left, a turn brings the positions closer together. -/
theorem remaining_turn?_lt (hg : g.Parallels site.ground World Ref) (h : Follows World size c s) (hb : s.target = b)
    (hmore : ¬ c.isDone) : ∃ next, c.turn? g b = some next ∧ next.remaining < c.remaining := by
  obtain ⟨next, hturn, hnext⟩ := h.turn?_eq hg hb
  exact ⟨next, hturn, h.remaining_lt (h.isDone_eq ▸ hmore) hnext⟩

/-- All turns together do what all steps of the pass do. -/
theorem run?_eq (hg : g.Parallels site.ground World Ref) (h : Follows World size c s) (hb : s.target = b) :
    ∃ last, c.run? g b = some last ∧ Follows World size last (s.run site) := by
  fun_induction Pass.run s site generalizing c with
  | case1 s hdone =>
    refine ⟨c, ?_, h⟩
    rw [run?, if_pos (h.isDone_eq.trans hdone)]
  | case2 s hmore ih =>
    obtain ⟨next, hturn, hnext⟩ := h.turn?_eq hg hb
    obtain ⟨last, hrun, hlast⟩ := ih hnext ((s.target_step site).trans hb)
    refine ⟨last, ?_, hlast⟩
    rw [run?, if_neg (by rwa [h.isDone_eq]), hturn]
    exact (if_pos (h.remaining_lt hmore hnext)).trans hrun

end Follows

/-- The counter follows the pass from the start. -/
theorem follows_start {world : W} {d : Document} (hw : World world (d, [])) :
    Follows World a.length (start world a b) (Pass.start d a b) where
  size := rfl
  old := ⟨[], [], (List.append_nil a).symm, rfl, (Nat.zero_add _).symm⟩
  newStart := rfl
  newEnd := (Nat.zero_add _).symm
  index := rfl
  swaps := rfl
  world := hw

/-- After any number of turns there is a pass that the counter follows. -/
theorem Reached.exists_follows [DecidableEq E] {size : Nat} {c' : Counter E W} (hg : g.Parallels site.ground World Ref)
    (h : Follows World size c s) (hb : s.target = b) (reached : Reached g b c c') :
    ∃ s', Follows World size c' s' ∧ s'.target = b := by
  induction reached with
  | start => exact ⟨s, h, hb⟩
  | turn _ _ turned ih =>
    obtain ⟨s', h', hb'⟩ := ih
    obtain ⟨next, hturn, hnext⟩ := h'.turn?_eq hg hb'
    obtain rfl := Option.some.inj (turned.symm.trans hturn)
    exact ⟨s'.step site, hnext, (s'.target_step site).trans hb'⟩

theorem Follows.inBounds (h : Follows World a.length c s) (hb : s.target = b) : c.InBounds a b where
  length_old := h.size
  oldStart_le := h.old.start_le
  oldEnd_le := h.size ▸ h.old.stop_le
  newStart_le := (h.new hb).start_le
  newEnd_le := (h.new hb).stop_le

end Counter

/-- Whatever the two lists are, and whatever is found and done, a reconciliation by positions comes to an end. After
every turn the positions are in bounds, and the next turn finds everything it reads in the lists and brings the
positions closer together. What `Document.reconcile` has done in the end is what has been done by positions, and
the entries are then those of the new list. -/
theorem reconcile_in_bounds [DecidableEq E] (g : Ground E N W) (world : W) (old new : List E) :
    (∃ last, (Counter.start world old new).run? g new = some last ∧ last.isDone) ∧
      (∀ c, Counter.Reached g new (.start world old new) c →
        c.InBounds old new ∧ (¬ c.isDone → ∃ next, c.turn? g new = some next ∧ next.remaining < c.remaining)) ∧
      ∀ (d : Document) (site : Site E),
        (d.reconcile site old new).result = new ∧
          ∃ last, (Counter.start (d, []) old new).run? site.ground new = some last ∧
            last.world = (d.reconcile site old new).scene ∧ last.index = (d.reconcile site old new).index ∧
              last.swaps = (d.reconcile site old new).swaps := by
  have hstart : Counter.Follows (fun _ _ => True) old.length (.start world old new) (.start .empty old new) :=
    Counter.follows_start trivial
  -- The positions do not depend on what is found, so any site will do for the pass to be followed.
  have hany := Ground.Parallels.any g (default : Site E).ground
  have htarget : ∀ d, (Pass.start d old new).target = new := fun d => List.append_nil new
  refine ⟨?_, ?_, ?_⟩
  · obtain ⟨last, hrun, hlast⟩ := hstart.run?_eq hany (htarget _)
    exact ⟨last, hrun, hlast.isDone_eq.trans (Pass.isDone_run _ _)⟩
  · intro c reached
    obtain ⟨s, hc, hb⟩ := reached.exists_follows hany hstart (htarget _)
    exact ⟨hc.inBounds hb, hc.remaining_turn?_lt hany hb⟩
  · intro d site
    have hfollows : Counter.Follows Eq old.length (.start (d, []) old new) (.start d old new) :=
      Counter.follows_start rfl
    obtain ⟨last, hrun, hlast⟩ := hfollows.run?_eq (.refl site.ground) (htarget d)
    exact ⟨(Pass.result_run _ site).trans (htarget d), last, hrun, hlast.world, hlast.index, hlast.swaps⟩

end LiveMarkup
