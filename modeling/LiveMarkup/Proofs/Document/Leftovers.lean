import LiveMarkup.Proofs.Document.Exactness
/-!
# What a reconciliation may lose

A pass never takes anything into the old list, so what is left over when all new entries have been
placed was there at the beginning (`leftover_sublist`). A reconciliation therefore loses only entries
that are in both lists: the run of the old entries is replaced by new ones in their order, each of
them whole, and among them are all those that were not there before
(`reconcile_replaces_run`). If no entry has to be moved past another one, nothing is lost.
-/

namespace LiveMarkup

namespace Pass

variable {E : Type} [DecidableEq E]

/-- Looking an entry up leaves the old list as it is or drops its first entry. -/
theorem old_lookUp_sublist (s : Pass E) (site : Site E) (o n : E) :
    (s.lookUp site o n).old.Sublist s.old := by
  unfold lookUp
  dsimp only
  split
  · exact List.tail_sublist s.old
  · split
    · split
      · rw [old_insertAll]
        exact List.Sublist.refl s.old
      · exact List.tail_sublist s.old
    · exact List.tail_sublist s.old

/-- A step takes nothing into the old list and keeps its order. -/
theorem old_step_sublist (s : Pass E) (site : Site E) : (s.step site).old.Sublist s.old := by
  unfold step
  split
  · simp [placeRest]
  · exact List.nil_sublist s.old
  · rename_i o os n ns ho hn
    split_ifs
    · rw [ho]
      exact List.sublist_cons_self o os
    · rw [ho]
      exact List.dropLast_sublist (o :: os)
    · exact List.nil_sublist s.old
    · exact (List.dropLast_sublist s.old.tail).trans (List.tail_sublist s.old)
    · exact s.old_lookUp_sublist site o n

theorem old_settle_sublist (s : Pass E) (site : Site E) : (s.settle site).old.Sublist s.old := by
  fun_induction settle s site with
  | case1 s => exact List.Sublist.refl s.old
  | case2 s _ ih => exact ih.trans (s.old_step_sublist site)

/-- What is left over was in the old list. -/
theorem leftover_sublist (a b : List E) : (leftover a b).Sublist a :=
  old_settle_sublist _ _

end Pass

variable {S : Stage} {a b : List Block}

/-- After a reconciliation the run of the old entries has been replaced by new ones, in their order
and each of them whole, with every entry that is not in the old list among them. Nothing of an old
entry that is not in the new list is in the container, and all nodes but those of the entries are
where they were. If the entries that are in both lists stand in the same order in both, the container
shows the whole new list. -/
theorem reconcile_replaces_run (h : S.Shows S.origin [] a) (hb : b.Nodup)
    (hmem : ∀ e ∈ b, e ∈ S.blocks) :
    let after := (S.origin.reconcile S.site a b).document
    ∃ kept, kept.Sublist b ∧ (∀ e ∈ b, e ∉ a → e ∈ kept) ∧
      after.children S.container = S.ahead ++ kept.flatMap S.span ++ S.behind ∧
      (∀ e ∈ a, e ∉ b → ∀ n ∈ S.span e, n ∉ after.children S.container) ∧
      Document.Moved S.origin after (S.blocks.flatMap S.span) ∧
      (common a b = common b a → kept = b) := by
  intro after
  have hafter : S.Shows after [] (b.filter (· ∉ Pass.leftover a b)) := shows_reconcile h hb hmem
  have hchildren := hafter.children
  rw [S.part_nil] at hchildren
  refine ⟨b.filter (· ∉ Pass.leftover a b), List.filter_sublist, ?_, hchildren, ?_, hafter.since, ?_⟩
  · intro e he hea
    have hkept : e ∉ Pass.leftover a b := fun hl => hea ((Pass.leftover_sublist a b).subset hl)
    simpa [he] using hkept
  · intro e he heb n hn hc
    have hlive := hafter.live_of_parent (h.live_mem e he) hn (hafter.forest.parent_of_mem hc)
    exact heb (List.mem_filter.1 hlive).1
  · intro horder
    rw [List.filter_eq_self]
    intro e he
    simpa using leftover_of_same_order h hb hmem horder e he

/-- An element in which a text and two texts of a group stand between two others, and a text that
stands nowhere. -/
def groupInMain : Document :=
  let main := (Document.empty.create (.element "main" .html) "").2
  let texts := ["<", "a", "b", "c", ">", "d"].foldl (fun d t => (d.create .text t).2) main
  [1, 2, 3, 4, 5].foldl (fun d i => d.attach ⟨0⟩ ⟨i⟩ none) (texts.create .fragment "").2

/-- The group of the texts `b` and `c`. -/
def pairGroup : Group :=
  ⟨0, ⟨7⟩, [⟨3⟩, ⟨4⟩]⟩

theorem forest_groupInMain : groupInMain.Forest := by
  have hmain := Document.forest_empty.create (.element "main" .html) ""
  have htexts := (((((hmain.create .text "<").create .text "a").create .text "b").create .text
    "c").create .text ">").create .text "d"
  refine (((((htexts.create .fragment "").attach ?_ none).attach ?_ none).attach ?_ none).attach ?_
    none).attach ?_ none
  all_goals exact .of_root (by decide) (by decide) (by decide) (by decide) (by decide) (by decide)

/-- The text, the group and the text that stands nowhere, as blocks in the element. -/
def groupStage : Stage where
  origin := groupInMain
  container := ⟨0⟩
  blocks := [.single ⟨2⟩, .group pairGroup, .single ⟨6⟩]
  span := Block.nodes
  ahead := [⟨1⟩]
  behind := [⟨5⟩]
  has_container := by decide
  inner_container := by decide
  holds_origin e he := by
    simp only [List.mem_cons, List.not_mem_nil, or_false] at he
    rcases he with rfl | rfl | rfl
    · exact Document.holds_single (by decide) (by decide)
    · exact ⟨⟨by decide, by decide, .refl _, by decide, by decide⟩, by decide, by decide, by decide,
        by decide⟩
    · exact Document.holds_single (by decide) (by decide)
  apart := by decide
  outside := by decide
  clear_origin e he n hn ha := by
    have hroot := ha.eq_of_root (by decide)
    subst hroot
    revert e
    decide

theorem shows_groupInMain :
    groupStage.Shows groupInMain [] [.single ⟨2⟩, .group pairGroup] where
  origin_forest := forest_groupInMain
  since := .refl forest_groupInMain _
  live_mem := by decide
  children := by decide
  kept := by decide
  stowed e he hlive := by
    have hlast : e = .single ⟨6⟩ := by
      revert e
      decide
    subst hlast
    exact ⟨by decide, fun g hg => by cases hg⟩

/-- The first text goes and the one that stood nowhere comes in behind the group. -/
theorem reconcile_group :
    let a : List Block := [.single ⟨2⟩, .group pairGroup]
    let b : List Block := [.group pairGroup, .single ⟨6⟩]
    groupStage.Shows groupStage.origin [] a ∧ b.Nodup ∧ (∀ e ∈ b, e ∈ groupStage.blocks) ∧
      (groupInMain.reconcile groupStage.site a b).document.children ⟨0⟩ =
        [⟨1⟩, ⟨3⟩, ⟨4⟩, ⟨6⟩, ⟨5⟩] := by
  intro a b
  have hb : b.Nodup := by decide
  have hmem : ∀ e ∈ b, e ∈ groupStage.blocks := by decide
  obtain ⟨kept, -, -, hchildren, -, -, hall⟩ := reconcile_replaces_run shows_groupInMain hb hmem
  rw [hall (by decide)] at hchildren
  exact ⟨shows_groupInMain, hb, hmem, hchildren⟩

end LiveMarkup
