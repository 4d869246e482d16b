import LiveMarkup.Proofs.Document.Leftovers
import LiveMarkup.Proofs.Document.Steps
import Mathlib.Data.List.Induction
/-!
# Reversing a list

When a list is reconciled to its reverse, the entries at the two ends of what is left are each other's
counterparts at every moment, so they are exchanged, and what is left then is again a list and its reverse.
A single entry in the middle is in its place. Nothing else ever happens (`Pass.run_reverse`): no index is
built, and each exchange settles two entries. Reversing once more takes the same exchanges and leads back to
where it began (`reconcile_reverse`).
-/

namespace LiveMarkup

namespace Pass

variable {E : Type} [DecidableEq E] {s : Pass E} {o z : E} {os ns : List E}

/-- The same entry in front on both sides is in its place. -/
theorem step_of_head_eq (site : Site E) (ho : s.old = z :: os) (hn : s.new = z :: ns) :
    s.step site = { s with old := os, new := ns, front := z :: s.front } := by
  unfold step
  simp only [ho, hn, if_true]

/-- Entries at the two ends that have each other's places are exchanged. -/
theorem step_of_ends_crossed (site : Site E) (ho : s.old = o :: (os ++ [z]))
    (hn : s.new = z :: (ns ++ [o])) (hne : o ≠ z) : s.step site = s.swapEnds site o z := by
  have hold : (os ++ [z]).getLastD o = z := by simp
  have hnew : (ns ++ [o]).getLastD z = o := by simp
  have hmore : ((os ++ [z]).isEmpty && (ns ++ [o]).isEmpty) = false := by simp
  unfold step
  simp only [ho, hn, hold, hnew, hmore, if_neg hne, if_neg hne.symm, Bool.false_eq_true, if_false,
    and_self, if_true]

end Pass

variable {S : Stage} {d : Document} {s : Pass Block} {front a back : List Block}

/-- Entries that are to be reversed are exchanged two by two. By induction on both ends of what is left:
whatever stands in front of it and behind it is not touched. -/
theorem Pass.run_reverse (h : S.Shows s.document [] (front ++ a ++ back)) (ho : s.old = a)
    (hn : s.new = a.reverse) :
    (s.run S.site).index = s.index ∧ (s.run S.site).swaps = s.swaps + a.length / 2 ∧
      S.Shows (s.run S.site).document [] (front ++ a.reverse ++ back) := by
  induction a using List.bidirectionalRec generalizing s front back with
  | nil =>
    have hdone : s.isDone := by simp [isDone, ho, hn]
    rw [run_of_isDone S.site hdone]
    exact ⟨rfl, rfl, h⟩
  | singleton e =>
    have hmore : ¬ s.isDone := by simp [isDone, ho]
    rw [run_of_not_isDone S.site hmore, step_of_head_eq S.site ho hn, run_of_isDone S.site (by rfl)]
    exact ⟨rfl, by simp, h⟩
  | cons_append o mid z ih =>
    have hends : front ++ o :: (mid ++ [z]) ++ back = front ++ o :: (mid ++ z :: back) := by simp
    have hreverse : (o :: (mid ++ [z])).reverse = z :: (mid.reverse ++ [o]) := by simp
    rw [hends] at h
    rw [hreverse] at hn
    have hne : o ≠ z := by
      rintro rfl
      apply h.not_mem_around
      simp
    have hmore : ¬ s.isDone := by simp [isDone, ho]
    have hswap : S.Shows (s.swapEnds S.site o z).document [] ((front ++ [z]) ++ mid ++ o :: back) := by
      have := h.pass_swapEnds
      simpa using this
    have hold : (s.swapEnds S.site o z).old = mid := by simp [swapEnds, ho]
    have hnew : (s.swapEnds S.site o z).new = mid.reverse := by simp [swapEnds, hn]
    obtain ⟨hindex, hswaps, hrest⟩ := ih hswap hold hnew
    rw [run_of_not_isDone S.site hmore, step_of_ends_crossed S.site ho hn hne]
    have hcount : (s.swapEnds S.site o z).swaps = s.swaps + 1 := rfl
    have hlength : (o :: (mid ++ [z])).length = mid.length + 2 := by simp
    constructor
    · exact hindex
    · constructor
      · rw [hswaps, hcount, hlength]
        omega
      · simpa using hrest

/-- Blocks that are shown are shown in reversed order after they have been reconciled to it. -/
theorem shows_reconcile_reverse (h : S.Shows d [] a) :
    let done := d.reconcile S.site a a.reverse
    done.index = none ∧ done.swaps = a.length / 2 ∧ S.Shows done.document [] a.reverse := by
  have hstart : S.Shows (Pass.start d a a.reverse).document [] ([] ++ a ++ []) := by
    simpa [Pass.start] using h
  have hrun := Pass.run_reverse hstart rfl rfl
  simpa [Document.reconcile, Pass.start] using hrun

/-- Reconciling blocks to their reverse never builds an index and exchanges the ends once for every two of
them. Then the blocks stand in reversed order, each of them whole, between the nodes that stood around them,
and only their nodes have been moved. Reconciling them back takes as many exchanges, and the container has
the children it had at the beginning. -/
theorem reconcile_reverse (h : S.Shows S.origin [] a) :
    let there := S.origin.reconcile S.site a a.reverse
    let back := there.document.reconcile S.site a.reverse a
    there.index = none ∧ there.swaps = a.length / 2 ∧
    there.document.children S.container = S.ahead ++ a.reverse.flatMap S.span ++ S.behind ∧
    Document.Moved S.origin there.document (S.blocks.flatMap S.span) ∧
    back.index = none ∧ back.swaps = a.length / 2 ∧
    back.document.children S.container = S.origin.children S.container ∧
    Document.Moved S.origin back.document (S.blocks.flatMap S.span) := by
  intro there back
  obtain ⟨hindex, hswaps, hthere⟩ := shows_reconcile_reverse h
  have hagain := shows_reconcile_reverse hthere
  rw [List.reverse_reverse, List.length_reverse] at hagain
  obtain ⟨hindex', hswaps', hback⟩ := hagain
  have hchildren := hthere.children
  have hrestored : back.document.children S.container = S.origin.children S.container :=
    hback.children.trans h.children.symm
  rw [S.part_nil] at hchildren
  exact ⟨hindex, hswaps, hchildren, hthere.since, hindex', hswaps', hrestored, hback.since⟩

/-- A text and the group behind it change places, and back. -/
theorem reconcile_reverse_group :
    let a : List Block := [.single ⟨2⟩, .group pairGroup]
    let there := groupInMain.reconcile groupStage.site a a.reverse
    groupStage.Shows groupStage.origin [] a ∧ there.index = none ∧ there.swaps = 1 ∧
      there.document.children ⟨0⟩ = [⟨1⟩, ⟨3⟩, ⟨4⟩, ⟨2⟩, ⟨5⟩] ∧
      (there.document.reconcile groupStage.site a.reverse a).document.children ⟨0⟩ =
        [⟨1⟩, ⟨2⟩, ⟨3⟩, ⟨4⟩, ⟨5⟩] := by
  intro a there
  obtain ⟨hindex, hswaps, hchildren, -, -, -, hrestored, -⟩ := reconcile_reverse shows_groupInMain
  exact ⟨shows_groupInMain, hindex, hswaps, hchildren, hrestored⟩

end LiveMarkup
