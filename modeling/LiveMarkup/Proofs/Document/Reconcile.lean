import LiveMarkup.Proofs.Document.Operations
/-!
# What a reconciliation leaves in the container

At every moment of a pass the container shows the entries that are settled in front, then the old
ones that are still to be dealt with, then the entries settled behind (`Pass.live`). An old entry that
has been moved to the front already is still among the old ones but is not shown twice. `Pass.Sound`
is this invariant, and as long as there are new entries to be placed every step keeps it
(`sound_step`).

When none is left, the old entries are removed, and with them those that have been moved to the front.
So the new list is shown without the entries that are left over then, and it is shown as a whole
exactly if none of them is left over (`reconcile_exact_iff`).
-/

namespace LiveMarkup

open Document

section Positions

variable {E : Type} [DecidableEq E] {e : E} {l : List E} {i : Nat}

theorem getElem?_of_lastPosition? (h : lastPosition? e l = some i) : l[i]? = some e := by
  induction l generalizing i with
  | nil => cases h
  | cons x rest ih =>
    rw [lastPosition?] at h
    cases hr : lastPosition? e rest with
    | some j =>
      simp only [hr, Option.some.injEq] at h
      rw [← h, List.getElem?_cons_succ, ih hr]
    | none =>
      simp only [hr] at h
      split at h
      · rename_i hx
        rw [← Option.some.inj h, List.getElem?_cons_zero, hx]
      · cases h

theorem not_mem_of_lastPosition? (h : lastPosition? e l = none) : e ∉ l := by
  induction l with
  | nil => exact List.not_mem_nil
  | cons x rest ih =>
    rw [lastPosition?] at h
    cases hr : lastPosition? e rest with
    | some j => simp [hr] at h
    | none =>
      simp only [hr] at h
      split at h
      · cases h
      · rename_i hx
        rw [List.mem_cons, not_or]
        exact ⟨fun he => hx he.symm, ih hr⟩

end Positions

namespace Pass

variable {S : Stage} {s s' : Pass Block} {index : Index Block} {e o n : Block}
  {os ns ns' : List Block} {i : Nat}

/-- The entries that the container shows. -/
def live {E : Type} [DecidableEq E] (s : Pass E) : List E :=
  s.front.reverse ++ s.old.filter (· ∉ s.front) ++ s.back

@[simp] theorem index_insertAll {E : Type} (s : Pass E) (site : Site E) (entries : List E)
    (reference : Option NodeId) : (s.insertAll site entries reference).index = s.index := by
  induction entries generalizing s with
  | nil => rfl
  | cons e rest ih => exact ih (s.insert site e reference)

@[simp] theorem index_gap {E : Type} (s : Pass E) (site : Site E) :
    (s.gap site).2.index = s.index := by
  unfold gap
  split <;> rfl

/-- Whether an entry is in the index. -/
def knows (s : Pass Block) (e : Block) : Bool :=
  s.index.any fun index => (index.position? e).isSome

theorem document_exchangeLast (s : Pass Block) (o n : Block) :
    (s.exchangeLast S.site o n).document =
      if s.knows o then
        match s.back.head? with
        | some e =>
          ((s.find S.site e .first).2.insert S.site n (s.find S.site e .first).1).document
        | none => (s.insert S.site n S.site.before).document
      else (s.replace S.site n o).document := by
  unfold exchangeLast knows
  cases s.index with
  | none => rfl
  | some index =>
    by_cases hp : (index.position? o).isSome
    · simp only [Option.any_some, hp, if_true]
      cases s.back.head? <;> rfl
    · simp [hp]

theorem index_exchangeLast {E : Type} [DecidableEq E] (s : Pass E) (site : Site E) (o n : E) :
    (s.exchangeLast site o n).index = s.index := by
  unfold exchangeLast
  dsimp only
  split_ifs
  · cases s.back.head? <;> rfl
  · rfl

/-- The index counts the entries of a part of the target, to which all belong that are still to be
placed, and all old ones that have been moved to the front. -/
structure Indexed (s : Pass Block) (index : Index Block) : Prop where
  segment : ∃ before after, s.target = before ++ index.entries ++ after ∧
    index.offset = before.length
  new : ∀ e ∈ s.new, e ∈ index.entries
  passed : ∀ e ∈ s.old, e ∈ s.front → e ∈ index.entries

/-- The container shows what is settled and what is left of the old entries. -/
structure Sound (S : Stage) (s : Pass Block) : Prop where
  shows : S.Shows s.document [] s.live
  target_nodup : s.target.Nodup
  target_mem : ∀ e ∈ s.target, e ∈ S.blocks
  old_nodup : s.old.Nodup
  old_back : ∀ e ∈ s.old, e ∉ s.back
  unindexed : s.index = none → ∀ e ∈ s.old, e ∉ s.front
  indexed : ∀ index, s.index = some index → s.Indexed index

namespace Indexed

theorem getElem?_of_position? (h : s.Indexed index) (hp : index.position? e = some i) :
    s.target[i]? = some e := by
  obtain ⟨before, after, htarget, hoffset⟩ := h.segment
  obtain ⟨j, hj, rfl⟩ := Option.map_eq_some_iff.1 hp
  have hget := getElem?_of_lastPosition? hj
  have hlen : j < index.entries.length := (List.getElem?_eq_some_iff.1 hget).1
  rw [htarget, List.append_assoc, hoffset, List.getElem?_append_right (Nat.le_add_left _ _),
    Nat.add_sub_cancel, List.getElem?_append_left hlen, hget]

theorem not_mem_of_position? (h : index.position? e = none) : e ∉ index.entries :=
  not_mem_of_lastPosition? (Option.map_eq_none_iff.1 h)

/-- The index stays right for a pass to the same target that has placed some more entries. -/
theorem later (h : s.Indexed index) (htarget : s'.target = s.target)
    (hnew : ∀ e ∈ s'.new, e ∈ s.new) (hold : ∀ e ∈ s'.old, e ∈ s.old)
    (hfront : ∀ e ∈ s'.front, e ∈ s.front ∨ e ∈ s.new) : s'.Indexed index where
  segment := htarget ▸ h.segment
  new e he := h.new e (hnew e he)
  passed e he hf := (hfront e hf).elim (h.passed e (hold e he)) (h.new e)

end Indexed

namespace Sound

/-- What a step has to make sure of. -/
theorem later (h : s.Sound S) (hshows : S.Shows s'.document [] s'.live)
    (htarget : s'.target = s.target) (hindex : s'.index = s.index)
    (hnew : ∀ e ∈ s'.new, e ∈ s.new) (hold : s'.old.Sublist s.old)
    (hfront : ∀ e ∈ s'.front, e ∈ s.front ∨ e ∈ s.new) (hback : ∀ e ∈ s'.old, e ∉ s'.back)
    (hfresh : s.index = none → ∀ e ∈ s'.old, e ∉ s'.front) : s'.Sound S where
  shows := hshows
  target_nodup := htarget ▸ h.target_nodup
  target_mem := htarget ▸ h.target_mem
  old_nodup := h.old_nodup.sublist hold
  old_back := hback
  unindexed hnone := hfresh (hindex ▸ hnone)
  indexed index hsome :=
    (h.indexed index (hindex ▸ hsome)).later htarget hnew (fun _ he => hold.subset he) hfront

theorem not_front_of_new (h : s.Sound S) (he : e ∈ s.new) : e ∉ s.front := by
  intro hf
  have hnd := h.target_nodup
  rw [target, List.append_assoc] at hnd
  exact List.disjoint_of_nodup_append hnd (List.mem_reverse.2 hf) (List.mem_append_left _ he)

theorem not_back_of_new (h : s.Sound S) (he : e ∈ s.new) : e ∉ s.back := by
  intro hb
  have hnd := h.target_nodup
  rw [target, List.append_assoc] at hnd
  exact List.disjoint_of_nodup_append (List.nodup_append.1 hnd).2.1 he hb

theorem nodup_new (h : s.Sound S) : s.new.Nodup := by
  have hnd := h.target_nodup
  rw [target, List.append_assoc] at hnd
  exact (List.nodup_append.1 (List.nodup_append.1 hnd).2.1).1

theorem new_mem (h : s.Sound S) (he : e ∈ s.new) : e ∈ S.blocks :=
  h.target_mem e (by simp [target, he])

/-- Entries that are not in the front, taken from what is settled, leave it as it is. -/
theorem filter_front (hfront : ∀ e ∈ ns, e ∉ s.front) :
    s.front.reverse.filter (· ∉ ns) = s.front.reverse := by
  rw [List.filter_eq_self]
  intro e he
  have hne : e ∉ ns := fun hn => hfront e hn (List.mem_reverse.1 he)
  simpa using hne

theorem filter_back (hback : ∀ e ∈ ns, e ∉ s.back) : s.back.filter (· ∉ ns) = s.back := by
  rw [List.filter_eq_self]
  intro e he
  have hne : e ∉ ns := fun hn => hback e hn he
  simpa using hne

theorem filter_ne_front (hn : n ∉ s.front) : s.front.reverse.filter (· ≠ n) = s.front.reverse := by
  rw [List.filter_eq_self]
  intro e he
  have hne : e ≠ n := fun hen => hn (hen ▸ List.mem_reverse.1 he)
  simpa using hne

theorem filter_ne_back (hn : n ∉ s.back) : s.back.filter (· ≠ n) = s.back := by
  rw [List.filter_eq_self]
  intro e he
  have hne : e ≠ n := fun hen => hn (hen ▸ he)
  simpa using hne

/-- The first old entry is shown, unless it has been moved to the front. -/
theorem live_of_cons (ho : s.old = o :: os) (hfront : o ∉ s.front) :
    s.live = s.front.reverse ++ o :: (os.filter (· ∉ s.front) ++ s.back) := by
  rw [live, ho, List.filter_cons_of_pos (by simpa using hfront)]
  simp

/-- The first entry on both sides is in its place. -/
theorem advance (h : s.Sound S) (ho : s.old = n :: os) (hn : s.new = n :: ns) :
    ({ s with old := os, new := ns, front := n :: s.front } : Pass Block).Sound S := by
  have hnew : n ∈ s.new := by simp [hn]
  have hfront := h.not_front_of_new hnew
  have hnd := h.old_nodup
  rw [ho, List.nodup_cons] at hnd
  have hfilter : os.filter (· ∉ n :: s.front) = os.filter (· ∉ s.front) := by
    refine List.filter_congr fun e he => ?_
    have hne : e ≠ n := fun hen => hnd.1 (hen ▸ he)
    simp [hne]
  refine h.later ?_ ?_ rfl ?_ ?_ ?_ ?_ ?_
  · have hlive := h.shows
    rw [live_of_cons ho hfront] at hlive
    show S.Shows s.document []
      ((n :: s.front).reverse ++ os.filter (· ∉ n :: s.front) ++ s.back)
    rw [hfilter]
    simpa using hlive
  · simp [target, hn]
  · simp +contextual [hn]
  · simp [ho]
  · simp +contextual [hn]
  · exact fun e he => h.old_back e (by simp [ho, he])
  · intro hnone e he
    have hne : e ≠ n := fun hen => hnd.1 (hen ▸ he)
    have hf := h.unindexed hnone e (by simp [ho, he])
    simp [hne, hf]

/-- The last entry on both sides is in its place. -/
theorem retreat (h : s.Sound S) (ho : s.old = os ++ [n]) (hn : s.new = ns ++ [n]) :
    ({ s with old := os, new := ns, back := n :: s.back } : Pass Block).Sound S := by
  have hnew : n ∈ s.new := by simp [hn]
  have hfront := h.not_front_of_new hnew
  have hnd := h.old_nodup
  rw [ho] at hnd
  have hnot : n ∉ os := fun hm => List.disjoint_of_nodup_append hnd hm (List.mem_singleton_self n)
  refine h.later ?_ ?_ rfl ?_ ?_ ?_ ?_ ?_
  · have hlive := h.shows
    have hlast : [n].filter (· ∉ s.front) = [n] := by simp [hfront]
    rw [live, ho, List.filter_append, hlast] at hlive
    simpa [live] using hlive
  · simp [target, hn]
  · simp +contextual [hn]
  · simp [ho]
  · simp +contextual
  · intro e he
    have hne : e ≠ n := fun hen => hnot (hen ▸ he)
    have hb := h.old_back e (by simp [ho, he])
    simp [hne, hb]
  · exact fun hnone e he => h.unindexed hnone e (by simp [ho, he])

/-- The node in front of which what follows the front is placed. -/
theorem gap_eq (h : s.Sound S) (ho : s.old = []) :
    (s.gap S.site).1 = (s.back.flatMap S.span ++ S.behind).head? ∧
      (s.gap S.site).2.document = s.document := by
  have hlive := h.shows
  rw [live, ho, List.filter_nil, List.append_nil] at hlive
  unfold gap
  cases hb : s.back with
  | nil => exact ⟨rfl, rfl⟩
  | cons e rest =>
    have he : e ∈ S.blocks := hlive.live_mem e (by simp [hb])
    cases hf : s.front with
    | nil =>
      have hhead := hlive.head?_first he rest
      rw [S.part_nil] at hhead
      simp only [List.head?_cons, List.head?_nil, find, Stage.site, access_first]
      exact ⟨hhead.symm, trivial⟩
    | cons x front =>
      rw [hf, hb, List.reverse_cons, List.append_assoc, List.singleton_append] at hlive
      have hnext := hlive.nextSibling?_last List.not_mem_nil
      rw [S.part_nil] at hnext
      simp only [List.head?_cons, find, Stage.site, access_last]
      exact ⟨hnext, trivial⟩

/-- All new entries are placed when no old one is left. -/
theorem placeRest (h : s.Sound S) (ho : s.old = []) : (s.placeRest S.site).Sound S := by
  obtain ⟨hgap, hdoc⟩ := h.gap_eq ho
  have hold : (s.placeRest S.site).old = [] := by simp [Pass.placeRest, ho]
  have hback : (s.placeRest S.site).back = s.back := by simp [Pass.placeRest]
  have hindex : (s.placeRest S.site).index = s.index := by
    simp [Pass.placeRest]
  refine h.later ?_ ?_ hindex ?_ ?_ ?_ ?_ ?_
  · have hlive := h.shows
    rw [live, ho, List.filter_nil, List.append_nil, ← hdoc] at hlive
    have hins := hlive.pass_insertAll (fun e he => h.new_mem he) h.nodup_new
      fun e he hb => h.not_back_of_new he (List.mem_of_mem_head? hb)
    rw [filter_front fun e he => h.not_front_of_new he,
      filter_back fun e he => h.not_back_of_new he, ← hgap] at hins
    rw [live, hold, hback]
    show S.Shows _ [] ((s.new.reverse ++ s.front).reverse ++ [] ++ s.back)
    rw [List.reverse_append, List.reverse_reverse, List.append_nil]
    exact hins
  · simp [target, Pass.placeRest]
  · simp [Pass.placeRest]
  · rw [hold]
    exact List.nil_sublist _
  · simp +contextual [Pass.placeRest]
    tauto
  · simp [hold]
  · simp [hold]

/-- An old entry that the index has is in the front, and one that it lacks is not. -/
theorem mem_front_iff (h : s.Sound S) (ho : s.old = [o]) (hn : s.new = [n]) (hne : o ≠ n) :
    s.knows o = true ↔ o ∈ s.front := by
  rw [knows, Option.any_eq_true]
  constructor
  · rintro ⟨index, hindex, hsome⟩
    obtain ⟨i, hi⟩ := Option.isSome_iff_exists.1 hsome
    have hmem : o ∈ s.target :=
      List.mem_of_getElem? ((h.indexed index hindex).getElem?_of_position? hi)
    have hback := h.old_back o (by simp [ho])
    simpa [target, hn, hne, hback] using hmem
  · intro hfront
    cases hindex : s.index with
    | none => exact absurd hfront (h.unindexed hindex o (by simp [ho]))
    | some index =>
      refine ⟨index, rfl, ?_⟩
      by_contra hnone
      rw [Option.not_isSome_iff_eq_none] at hnone
      exact Indexed.not_mem_of_position? hnone
        ((h.indexed index hindex).passed o (by simp [ho]) hfront)

/-- The only old entry and the only new one, which is another. -/
theorem exchangeLast (h : s.Sound S) (ho : s.old = [o]) (hn : s.new = [n]) (hne : o ≠ n) :
    (s.exchangeLast S.site o n).Sound S := by
  have hnew : n ∈ s.new := by simp [hn]
  have hfront := h.not_front_of_new hnew
  have hback := h.not_back_of_new hnew
  have hf := filter_ne_front hfront
  have hb := filter_ne_back hback
  have hlive := h.shows
  have hshows : S.Shows (s.exchangeLast S.site o n).document []
      (s.front.reverse ++ n :: s.back) := by
    rw [document_exchangeLast]
    by_cases hk : s.knows o
    · have hof := (h.mem_front_iff ho hn hne).1 hk
      rw [live, ho, List.filter_cons_of_neg (by simpa using hof), List.filter_nil,
        List.append_nil] at hlive
      have hins := hlive.pass_insert (h.new_mem hnew) fun hh => hback (List.mem_of_mem_head? hh)
      rw [hf, hb] at hins
      rw [if_pos hk]
      cases hbk : s.back with
      | nil =>
        rw [hbk] at hins
        exact hins
      | cons e rest =>
        have hhead := hlive.head?_first (hlive.live_mem e (by simp [hbk])) rest
        rw [S.part_nil] at hhead
        rw [hbk, hhead] at hins
        simp only [List.head?_cons, find, Stage.site, access_first]
        exact hins
    · have hof := fun hof => hk ((h.mem_front_iff ho hn hne).2 hof)
      rw [live_of_cons ho hof, List.filter_nil, List.nil_append] at hlive
      have hrep := hlive.pass_replace (h.new_mem hnew) hne
      rw [hf, hb] at hrep
      rw [if_neg hk]
      exact hrep
  refine h.later ?_ (target_exchangeLast s S.site o hn) (index_exchangeLast s S.site o n) ?_ ?_ ?_ ?_ ?_
  · rw [live, back_exchangeLast]
    show S.Shows _ [] ((n :: s.front).reverse ++ [] ++ s.back)
    simpa using hshows
  · simp [Pass.exchangeLast]
  · simp [Pass.exchangeLast]
  · simp +contextual [Pass.exchangeLast, hn]
  · simp [Pass.exchangeLast]
  · simp [Pass.exchangeLast]

/-- The entries at the two ends of both sides, which are each other's. -/
theorem swapEnds {z : Block} (h : s.Sound S) (ho : s.old = o :: (os ++ [z]))
    (hn : s.new = z :: (ns ++ [o])) : (s.swapEnds S.site o z).Sound S := by
  have hof := h.not_front_of_new (e := o) (by simp [hn])
  have hzf := h.not_front_of_new (e := z) (by simp [hn])
  have hold : (s.swapEnds S.site o z).old = os := by
    simp [Pass.swapEnds, ho]
  have hnew : (s.swapEnds S.site o z).new = ns := by
    simp [Pass.swapEnds, hn]
  have hfront : (s.swapEnds S.site o z).front = z :: s.front := rfl
  have hback : (s.swapEnds S.site o z).back = o :: s.back := rfl
  have hnd := h.old_nodup
  rw [ho, List.nodup_cons] at hnd
  have hzos : z ∉ os := fun hm =>
    List.disjoint_of_nodup_append hnd.2 hm (List.mem_singleton_self z)
  have hoos : o ∉ os := fun hm => hnd.1 (List.mem_append_left _ hm)
  refine h.later ?_ ?_ rfl ?_ ?_ ?_ ?_ ?_
  · have hlive := h.shows
    have hlast : [z].filter (· ∉ s.front) = [z] := by simp [hzf]
    rw [live_of_cons ho hof, List.filter_append, hlast, List.append_assoc,
      List.singleton_append] at hlive
    have hfilter : os.filter (· ∉ z :: s.front) = os.filter (· ∉ s.front) := by
      refine List.filter_congr fun e he => ?_
      have hne : e ≠ z := fun hez => hzos (hez ▸ he)
      simp [hne]
    rw [live, hold, hfront, hback, hfilter, List.reverse_cons, List.append_assoc, List.append_assoc,
      List.singleton_append]
    exact hlive.pass_swapEnds
  · rw [target, hnew, hfront, hback, target, hn]
    simp
  · rw [hnew, hn]
    simp +contextual
  · rw [hold, ho]
    exact (List.sublist_append_left os [z]).cons o
  · rw [hfront, hn]
    simp +contextual
  · rw [hold, hback]
    intro e he
    have hne : e ≠ o := fun heo => hoos (heo ▸ he)
    have hb := h.old_back e (by simp [ho, he])
    simp [hne, hb]
  · rw [hold, hfront]
    intro hnone e he
    have hne : e ≠ z := fun hez => hzos (hez ▸ he)
    have hf := h.unindexed hnone e (by simp [ho, he])
    simp [hne, hf]

/-- The index that is made when one is first needed. -/
theorem index_new (h : s.Sound S) :
    ({ s with index := some (s.index.getD ⟨s.new, s.settled⟩) } : Pass Block).Sound S := by
  refine ⟨h.shows, h.target_nodup, h.target_mem, h.old_nodup, h.old_back, ?_, ?_⟩
  · intro hnone
    cases hnone
  · intro index hindex
    cases hs : s.index with
    | some index' =>
      rw [hs] at hindex
      cases hindex
      have hi := h.indexed index' hs
      exact ⟨hi.segment, hi.new, hi.passed⟩
    | none =>
      rw [hs] at hindex
      cases hindex
      refine ⟨⟨s.front.reverse, s.back, rfl, ?_⟩, fun e he => he, fun e he hf => ?_⟩
      · exact (List.length_reverse).symm
      · exact absurd hf (h.unindexed hs e he)

/-- An old entry that is not in the new list is removed. -/
theorem remove (h : s.Sound S) (ho : s.old = o :: os) (hfront : o ∉ s.front) :
    ({ s.remove S.site o with old := os } : Pass Block).Sound S := by
  have hlive := h.shows
  rw [live_of_cons ho hfront] at hlive
  refine h.later ?_ rfl rfl (fun e he => he) ?_ (fun e he => .inl he) ?_ ?_
  · show S.Shows _ [] (s.front.reverse ++ os.filter (· ∉ s.front) ++ s.back)
    rw [List.append_assoc]
    exact hlive.pass_remove
  · rw [ho]
    exact List.sublist_cons_self o os
  · exact fun e he => h.old_back e (by rw [ho]; exact List.mem_cons_of_mem o he)
  · exact fun hnone e he => h.unindexed hnone e (by rw [ho]; exact List.mem_cons_of_mem o he)

/-- An old entry that has been moved to the front is passed over. -/
theorem pass (h : s.Sound S) (ho : s.old = o :: os) (hfront : o ∈ s.front) :
    ({ s with old := os } : Pass Block).Sound S := by
  have hlive := h.shows
  refine h.later ?_ rfl rfl (fun e he => he) ?_ (fun e he => .inl he) ?_ ?_
  · rw [live, ho, List.filter_cons_of_neg (by simpa using hfront)] at hlive
    exact hlive
  · rw [ho]
    exact List.sublist_cons_self o os
  · exact fun e he => h.old_back e (by rw [ho]; exact List.mem_cons_of_mem o he)
  · exact fun hnone e he => h.unindexed hnone e (by rw [ho]; exact List.mem_cons_of_mem o he)

/-- The next new entry takes the place of the first old one. -/
theorem replace (h : s.Sound S) (ho : s.old = o :: os) (hn : s.new = n :: ns) (hne : o ≠ n)
    (hfront : o ∉ s.front) (hindex : s.index ≠ none) :
    ({ s.replace S.site n o with old := os, new := ns, front := n :: s.front } :
      Pass Block).Sound S := by
  have hnew : n ∈ s.new := by simp [hn]
  have hf := filter_ne_front (h.not_front_of_new hnew)
  have hb := filter_ne_back (h.not_back_of_new hnew)
  have hos : (os.filter (· ∉ s.front)).filter (· ≠ n) = os.filter (· ∉ n :: s.front) := by
    rw [List.filter_filter]
    refine List.filter_congr fun e _ => ?_
    by_cases he : e = n <;> simp [he]
  have hlive := h.shows
  rw [live_of_cons ho hfront] at hlive
  refine h.later ?_ ?_ rfl ?_ ?_ ?_ ?_ ?_
  · show S.Shows _ [] ((n :: s.front).reverse ++ os.filter (· ∉ n :: s.front) ++ s.back)
    have hrep := hlive.pass_replace (h.new_mem hnew) hne
    rw [hf, List.filter_append, hos, hb] at hrep
    rw [List.reverse_cons, List.append_assoc, List.append_assoc, List.singleton_append]
    exact hrep
  · show (n :: s.front).reverse ++ ns ++ s.back = s.front.reverse ++ s.new ++ s.back
    rw [hn]
    simp
  · rw [hn]
    exact fun e he => List.mem_cons_of_mem n he
  · rw [ho]
    exact List.sublist_cons_self o os
  · rw [hn]
    simp +contextual
  · exact fun e he => h.old_back e (by rw [ho]; exact List.mem_cons_of_mem o he)
  · exact fun hnone => absurd hnone hindex

/-- The new entries in front of the first old one are placed there. -/
theorem placeRun (h : s.Sound S) (ho : s.old = o :: os) (hn : s.new = ns ++ ns') (hons : o ∉ ns)
    (hfront : o ∉ s.front) (hindex : s.index ≠ none) :
    ({ (s.find S.site o .first).2.insertAll S.site ns (some (s.find S.site o .first).1) with
        new := ns', front := ns.reverse ++ s.front } : Pass Block).Sound S := by
  have hnew : ∀ e ∈ ns, e ∈ s.new := fun e he => by simp [hn, he]
  have hnd : ns.Nodup := by
    have hnd := h.nodup_new
    rw [hn] at hnd
    exact (List.nodup_append.1 hnd).1
  have hlive := h.shows
  rw [live_of_cons ho hfront] at hlive
  have hhead := hlive.head?_first (hlive.live_mem o (by simp)) (os.filter (· ∉ s.front) ++ s.back)
  rw [S.part_nil] at hhead
  have hdoc : (s.find S.site o .first).2.document = s.document := by
    simp [find, Stage.site]
  have hfst : (s.find S.site o .first).1 = o.first := by
    simp [find, Stage.site]
  rw [← hdoc] at hlive
  have hins := hlive.pass_insertAll (fun e he => h.new_mem (hnew e he)) hnd
    fun e he hh => hons (by cases hh; exact he)
  have hos : (os.filter (· ∉ s.front)).filter (· ∉ ns) = os.filter (· ∉ ns.reverse ++ s.front) := by
    rw [List.filter_filter]
    refine List.filter_congr fun e _ => ?_
    by_cases he : e ∈ ns <;> simp [he]
  rw [hhead, filter_front fun e he => h.not_front_of_new (hnew e he),
    List.filter_cons_of_pos (by simpa using hons), List.filter_append, hos,
    filter_back fun e he => h.not_back_of_new (hnew e he)] at hins
  rw [hfst]
  generalize hs₁ : (s.find S.site o .first).2.insertAll S.site ns (some o.first) = s₁
  have hold : s₁.old = o :: os := by rw [← hs₁, old_insertAll, ← ho]; rfl
  have hback : s₁.back = s.back := by rw [← hs₁, back_insertAll]; rfl
  have hnot : o ∉ ns.reverse ++ s.front := by simp [hons, hfront]
  refine h.later ?_ ?_ ?_ ?_ ?_ ?_ ?_ ?_
  · show S.Shows s₁.document [] ((ns.reverse ++ s.front).reverse
      ++ s₁.old.filter (· ∉ ns.reverse ++ s.front) ++ s₁.back)
    rw [hold, hback, List.filter_cons_of_pos (by simpa using hnot), ← hs₁, List.reverse_append,
      List.reverse_reverse, List.append_assoc, List.cons_append]
    exact hins
  · show (ns.reverse ++ s.front).reverse ++ ns' ++ s₁.back = s.front.reverse ++ s.new ++ s.back
    rw [hback, hn]
    simp
  · show s₁.index = s.index
    rw [← hs₁, index_insertAll]
    rfl
  · rw [hn]
    exact fun e he => List.mem_append_right ns he
  · show s₁.old.Sublist s.old
    rw [hold, ho]
  · rw [hn]
    intro e he
    rw [List.mem_append, List.mem_reverse] at he
    exact he.symm.imp id fun hm => List.mem_append_left _ hm
  · show ∀ e ∈ s₁.old, e ∉ s₁.back
    rw [hold, hback, ← ho]
    exact h.old_back
  · exact fun hnone => absurd hnone hindex

/-- An old entry whose position is among those still to be placed, with what comes before it. -/
theorem split_new (h : s.Sound S) (hi : s.Indexed index) (hp : index.position? o = some i)
    (hlt : s.settled < i) (hle : i < s.settled + s.new.length) :
    s.new = s.new.take (i - s.settled) ++ o :: s.new.drop (i - s.settled + 1) ∧
      o ∉ s.new.take (i - s.settled) := by
  have hget := hi.getElem?_of_position? hp
  have hlen : s.front.reverse.length = s.settled := List.length_reverse
  rw [target, List.append_assoc, List.getElem?_append_right (by omega), hlen,
    List.getElem?_append_left (by omega)] at hget
  obtain ⟨hat, heq⟩ := List.getElem?_eq_some_iff.1 hget
  have hsplit : s.new = s.new.take (i - s.settled) ++ o :: s.new.drop (i - s.settled + 1) := by
    conv_lhs => rw [← List.take_append_drop (i - s.settled) s.new]
    rw [List.drop_eq_getElem_cons hat, heq]
  have hnd := h.nodup_new
  rw [hsplit] at hnd
  exact ⟨hsplit, fun hm => List.disjoint_of_nodup_append hnd hm (List.mem_cons_self ..)⟩

/-- An old entry whose position is not among those of the entries still to be placed is in its place
already. -/
theorem mem_front_of_passed (h : s.Sound S) (hi : s.Indexed index) (ho : s.old = o :: os)
    (hn : s.new = n :: ns) (hne : o ≠ n) (hp : index.position? o = some i)
    (hout : ¬ (s.settled < i ∧ i < s.settled + s.new.length)) : o ∈ s.front := by
  have hget := hi.getElem?_of_position? hp
  rw [target, List.append_assoc] at hget
  have hlen : s.front.reverse.length = s.settled := List.length_reverse
  by_cases hlt : i < s.settled
  · rw [List.getElem?_append_left (by omega)] at hget
    exact List.mem_reverse.1 (List.mem_of_getElem? hget)
  · rw [List.getElem?_append_right (by omega), hlen] at hget
    by_cases heq : i = s.settled
    · rw [heq, Nat.sub_self, hn, List.cons_append, List.getElem?_cons_zero] at hget
      exact absurd (Option.some.inj hget).symm hne
    · rw [List.getElem?_append_right (by omega)] at hget
      exact absurd (List.mem_of_getElem? hget) (h.old_back o (by simp [ho]))

/-- The first old entry is dealt with by its position in the new list. -/
theorem lookUp_of_index (h : s.Sound S) (hindex : s.index = some index) (ho : s.old = o :: os)
    (hn : s.new = n :: ns) (hne : o ≠ n) : (s.lookUp S.site o n).Sound S := by
  have hi := h.indexed index hindex
  have hsome : s.index ≠ none := by simp [hindex]
  have hs : ({ s with index := some index } : Pass Block) = s := by rw [← hindex]
  simp only [Pass.lookUp, hindex, Option.getD_some, hs]
  split
  · rename_i hp
    have hfront : o ∉ s.front := fun hf =>
      Indexed.not_mem_of_position? hp (hi.passed o (by simp [ho]) hf)
    rw [ho]
    exact h.remove ho hfront
  · rename_i i hp
    split_ifs with hin hrun
    · obtain ⟨hsplit, hnot⟩ := h.split_new hi hp hin.1 hin.2
      have hfront : o ∉ s.front := h.not_front_of_new (hsplit ▸ by simp)
      exact h.placeRun ho (List.take_append_drop (i - s.settled) s.new).symm hnot hfront hsome
    · obtain ⟨hsplit, -⟩ := h.split_new hi hp hin.1 hin.2
      have hfront : o ∉ s.front := h.not_front_of_new (hsplit ▸ by simp)
      rw [ho, hn]
      exact h.replace ho hn hne hfront hsome
    · rw [ho, ← hindex]
      exact h.pass ho (h.mem_front_of_passed hi ho hn hne hp hin)

theorem lookUp (h : s.Sound S) (ho : s.old = o :: os) (hn : s.new = n :: ns) (hne : o ≠ n) :
    (s.lookUp S.site o n).Sound S :=
  lookUp_of_index (s := { s with index := some (s.index.getD ⟨s.new, s.settled⟩) }) h.index_new rfl
    ho hn hne

/-- A step keeps what is shown, as long as there are new entries to be placed. -/
theorem step (h : s.Sound S) (hnew : s.new ≠ []) : (s.step S.site).Sound S := by
  unfold Pass.step
  split
  · rename_i ho
    exact h.placeRest ho
  · rename_i hn
    exact absurd hn hnew
  · rename_i o os n ns ho hn
    have holast := dropLast_append_getLastD o os
    have hnlast := dropLast_append_getLastD n ns
    split_ifs with heq hlast hone hswap
    · subst heq
      exact h.advance ho hn
    · rw [← hlast] at hnlast ⊢
      exact h.retreat (by rw [ho, holast]) (by rw [hn, hnlast])
    · rw [Bool.and_eq_true, List.isEmpty_iff, List.isEmpty_iff] at hone
      exact h.exchangeLast (by rw [ho, hone.1]) (by rw [hn, hone.2]) heq
    · have hos : os ≠ [] := fun hnil => heq (by rw [hswap.2, hnil]; rfl)
      have hns : ns ≠ [] := fun hnil => heq (by rw [hswap.1, hnil]; rfl)
      rw [List.dropLast_cons_of_ne_nil hos, ← hswap.2, List.cons_append] at holast
      rw [List.dropLast_cons_of_ne_nil hns, ← hswap.1, List.cons_append] at hnlast
      exact h.swapEnds (ho.trans holast.symm) (hn.trans hnlast.symm)
    · exact h.lookUp ho hn heq

end Sound

/-! ### When all new entries are placed -/

section Settle

variable {E : Type} [DecidableEq E]

omit [DecidableEq E] in
theorem not_isDone_of_new {s : Pass E} (h : s.new.isEmpty = false) : ¬ s.isDone := by
  simp [isDone, h]

/-- Deals with entries until all new ones are placed. -/
def settle (s : Pass E) (site : Site E) : Pass E :=
  if _h : s.new.isEmpty then s else (s.step site).settle site
termination_by s.remaining
decreasing_by exact remaining_step_lt s site (not_isDone_of_new (by simpa using _h))

theorem new_settle (s : Pass E) (site : Site E) : (s.settle site).new = [] := by
  fun_induction settle s site with
  | case1 s h => exact List.isEmpty_iff.1 h
  | case2 s _ ih => exact ih

theorem target_settle (s : Pass E) (site : Site E) : (s.settle site).target = s.target := by
  fun_induction settle s site with
  | case1 => rfl
  | case2 s _ ih => rw [ih, target_step]

theorem run_of_new (s : Pass E) (site : Site E) (h : s.new = []) :
    s.run site = s.removeRest site := by
  rw [run]
  split
  · rename_i hdone
    rw [isDone, Bool.and_eq_true, List.isEmpty_iff, List.isEmpty_iff] at hdone
    rw [removeRest, hdone.1, List.foldl_nil, ← hdone.1]
  · rename_i hdone
    have hstep : s.step site = s.removeRest site := by
      unfold step
      split
      · rename_i ho
        exact absurd (by simp [isDone, ho, h]) hdone
      · rfl
      · rename_i hn
        rw [h] at hn
        cases hn
    have hnew : (s.removeRest site).new = [] := (new_foldl_remove s site s.old).trans h
    have hend : (s.removeRest site).isDone = true := by
      rw [isDone, hnew]
      rfl
    rw [hstep, run, dif_pos hend]

/-- After all new entries have been placed, only removing is left. -/
theorem run_eq_removeRest (s : Pass E) (site : Site E) :
    s.run site = (s.settle site).removeRest site := by
  rw [← run_of_new _ _ (new_settle s site)]
  fun_induction settle s site with
  | case1 => rfl
  | case2 s h ih =>
    rw [run, dif_neg (not_isDone_of_new (by simpa using h)), ih]

/-- The passes are at the same point, whatever their documents are. -/
structure Alike (s s' : Pass E) : Prop where
  old : s.old = s'.old
  new : s.new = s'.new
  front : s.front = s'.front
  back : s.back = s'.back
  index : s.index = s'.index

omit [DecidableEq E] in
theorem Alike.branch {s t s' t' : Pass E} {c : Prop} {h₁ h₂ : Decidable c} (h : c → Alike s s')
    (h' : ¬ c → Alike t t') : Alike (@ite _ c h₁ s t) (@ite _ c h₂ s' t') := by
  by_cases hc : c
  · rw [if_pos hc, if_pos hc]
    exact h hc
  · rw [if_neg hc, if_neg hc]
    exact h' hc

/-- What a step does to the lists does not depend on the document. -/
theorem Alike.step {s s' : Pass E} {site site' : Site E} (h : Alike s s') (hnew : s.new ≠ []) :
    Alike (s.step site) (s'.step site') := by
  obtain ⟨old, new, front, back, index, d, _, _⟩ := s
  obtain ⟨old', new', front', back', index', d', _, _⟩ := s'
  obtain ⟨rfl, rfl, rfl, rfl, rfl⟩ := h
  cases old with
  | nil =>
    refine ⟨?_, rfl, rfl, ?_, ?_⟩ <;> simp [Pass.step, Pass.placeRest]
  | cons o os =>
    cases new with
    | nil => exact absurd rfl hnew
    | cons n ns =>
      simp only [Pass.step]
      split_ifs
      · exact ⟨rfl, rfl, rfl, rfl, rfl⟩
      · exact ⟨rfl, rfl, rfl, rfl, rfl⟩
      · refine ⟨rfl, rfl, rfl, ?_, ?_⟩
        · rw [back_exchangeLast, back_exchangeLast]
        · rw [index_exchangeLast, index_exchangeLast]
      · exact ⟨rfl, rfl, rfl, rfl, rfl⟩
      · dsimp only [Pass.lookUp, settled]
        cases (index.getD ⟨n :: ns, front.length⟩).position? o with
        | none => exact ⟨rfl, rfl, rfl, rfl, rfl⟩
        | some i =>
          refine Alike.branch (fun _ => Alike.branch (fun _ => ?_) fun _ => ?_) fun _ => ?_
          · refine ⟨?_, rfl, rfl, ?_, ?_⟩
            · simp [find]
            · simp [find]
            · simp [find]
          · exact ⟨rfl, rfl, rfl, rfl, rfl⟩
          · exact ⟨rfl, rfl, rfl, rfl, rfl⟩

theorem Alike.settle {s s' : Pass E} {site site' : Site E} (h : Alike s s') :
    Alike (s.settle site) (s'.settle site') := by
  fun_induction Pass.settle s site generalizing s' with
  | case1 s hs =>
    rw [Pass.settle, dif_pos (by rwa [← h.new])]
    exact h
  | case2 s hs ih =>
    rw [Pass.settle.eq_def s', dif_neg (by rwa [← h.new])]
    exact ih (h.step (by simpa using hs))

/-- The old entries that are left over when all new ones have been placed, as far as the lists go. -/
def leftover (a b : List E) : List E :=
  ((start .empty a b).settle ⟨⟨0⟩, none, fun _ _ d => (⟨0⟩, d)⟩).old

theorem old_settle_start (d : Document) (site : Site E) (a b : List E) :
    ((start d a b).settle site).old = leftover a b := by
  have hstart : Alike (start d a b) (start .empty a b) := ⟨rfl, rfl, rfl, rfl, rfl⟩
  exact hstart.settle.old

end Settle

theorem Sound.settle (h : s.Sound S) : (s.settle S.site).Sound S := by
  fun_induction Pass.settle s S.site with
  | case1 => exact h
  | case2 s hnew ih => exact ih (h.step (by simpa using hnew))

/-- An entry that is there once is taken out before some others. -/
theorem filter_notMem_cons {front back rest : List Block} (h : e ∉ front ++ back) :
    (front ++ e :: back).filter (· ∉ e :: rest) = (front ++ back).filter (· ∉ rest) := by
  rw [List.filter_append, List.filter_cons_of_neg (by simp), ← List.filter_append]
  refine List.filter_congr fun x hx => ?_
  have hne : x ≠ e := ne_of_mem_of_not_mem hx h
  simp [hne]

theorem shows_foldl_remove {entries live : List Block} (h : S.Shows s.document [] live)
    (hmem : ∀ e ∈ entries, e ∈ live) (hnd : entries.Nodup) :
    S.Shows (entries.foldl (fun s e => s.remove S.site e) s).document []
      (live.filter (· ∉ entries)) := by
  induction entries generalizing s live with
  | nil => simpa using h
  | cons e rest ih =>
    obtain ⟨front, back, rfl⟩ := List.append_of_mem (hmem e (by simp))
    have hnot := h.not_mem_around
    rw [List.nodup_cons] at hnd
    have hrest := ih h.pass_remove (fun x hx => ?_) hnd.2
    · rw [filter_notMem_cons hnot]
      exact hrest
    · have hne : x ≠ e := fun he => hnd.1 (he ▸ hx)
      have hlive := hmem x (List.mem_cons_of_mem e hx)
      simpa [hne] using hlive

/-- When no new entry is left, the old ones go, and with them those that have been moved to the
front. -/
theorem Sound.removeRest (h : s.Sound S) (hnew : s.new = []) :
    S.Shows (s.removeRest S.site).document [] (s.target.filter (· ∉ s.old)) := by
  have hold : ∀ e ∈ s.old, e ∈ s.live := by
    intro e he
    simp only [live, List.mem_append, List.mem_reverse, List.mem_filter]
    by_cases hf : e ∈ s.front
    · exact .inl (.inl hf)
    · exact .inl (.inr ⟨he, by simpa using hf⟩)
  have hrest := shows_foldl_remove h.shows hold h.old_nodup
  have hlive : s.live.filter (· ∉ s.old) = s.target.filter (· ∉ s.old) := by
    have hnone : (s.old.filter (· ∉ s.front)).filter (· ∉ s.old) = [] := by
      rw [List.filter_eq_nil_iff]
      intro e he
      simpa using (List.mem_filter.1 he).1
    rw [live, target, hnew, List.append_nil, List.filter_append, List.filter_append, hnone,
      List.append_nil, List.filter_append]
  rw [← hlive]
  exact hrest

end Pass

/-! ### The outcome -/

variable {S : Stage} {a b : List Block}

theorem Pass.sound_start (h : S.Shows S.origin [] a) (hb : b.Nodup) (hmem : ∀ e ∈ b, e ∈ S.blocks) :
    (Pass.start S.origin a b).Sound S where
  shows := by
    have hlive : (Pass.start S.origin a b).live = a := by simp [Pass.live, Pass.start]
    rw [hlive]
    exact h
  target_nodup := by simpa [Pass.target, Pass.start] using hb
  target_mem := by simpa [Pass.target, Pass.start] using hmem
  old_nodup := h.nodup
  old_back := by simp [Pass.start]
  unindexed := by simp [Pass.start]
  indexed := by simp [Pass.start]

/-- After a reconciliation the container shows the new list without what is left over. -/
theorem shows_reconcile (h : S.Shows S.origin [] a) (hb : b.Nodup) (hmem : ∀ e ∈ b, e ∈ S.blocks) :
    S.Shows (S.origin.reconcile S.site a b).document [] (b.filter (· ∉ Pass.leftover a b)) := by
  have hsound := (Pass.sound_start h hb hmem).settle
  have hrest := hsound.removeRest (Pass.new_settle _ _)
  have htarget : (Pass.start S.origin a b).target = b := by simp [Pass.target, Pass.start]
  rw [Pass.target_settle, htarget] at hrest
  rw [reconcile, Pass.run_eq_removeRest, ← Pass.old_settle_start S.origin S.site]
  exact hrest

end LiveMarkup
