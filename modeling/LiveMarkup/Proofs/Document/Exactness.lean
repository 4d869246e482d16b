import LiveMarkup.Proofs.Document.Reconcile
/-!
# When a reconciliation is exact

After a reconciliation the container shows the new list, but for the entries that are left over when
all new ones have been placed (`reconcile_exact_iff`). If the entries that are in both lists stand in
the same order in both, no entry ever has to be moved to the front of another one, and so none of
those that stay is left over (`leftover_of_same_order`).
-/

namespace LiveMarkup

section Common

variable {E : Type} [DecidableEq E] {x y : E} {xs ys zs : List E}

/-- The entries of a list that are also in another one. -/
def common (xs ys : List E) : List E :=
  xs.filter (· ∈ ys)

theorem mem_common : x ∈ common xs ys ↔ x ∈ xs ∧ x ∈ ys := by
  simp [common]

theorem common_cons_of_mem (h : x ∈ ys) : common (x :: xs) ys = x :: common xs ys := by
  rw [common, List.filter_cons_of_pos (by simpa using h), common]

theorem common_cons_of_not_mem (h : x ∉ ys) : common (x :: xs) ys = common xs ys := by
  rw [common, List.filter_cons_of_neg (by simpa using h), common]

theorem common_congr (h : ∀ x ∈ xs, x ∈ ys ↔ x ∈ zs) : common xs ys = common xs zs :=
  List.filter_congr fun x hx => by simp [h x hx]

theorem common_cons_right (h : y ∉ xs) : common xs (y :: ys) = common xs ys := by
  refine common_congr fun x hx => ?_
  have hne : x ≠ y := fun he => h (he ▸ hx)
  simp [hne]

theorem common_append (xs ys zs : List E) : common (xs ++ ys) zs = common xs zs ++ common ys zs :=
  List.filter_append ..

theorem filter_common (h : x ∉ ys) : (common xs (x :: ys)).filter (· ≠ x) = common xs ys := by
  rw [common, List.filter_filter]
  refine List.filter_congr fun y _ => ?_
  by_cases hy : y = x <;> simp [hy, h]

/-- If the order is the same, what stands in front of the first common entry is not common. -/
theorem common_eq_nil_of_order (h : common (x :: xs) (ys ++ x :: zs) = common (ys ++ x :: zs) (x :: xs))
    (hx : x ∉ ys) : common ys (x :: xs) = [] := by
  rw [common_cons_of_mem (by simp), common_append] at h
  cases hc : common ys (x :: xs) with
  | nil => rfl
  | cons y rest =>
    rw [hc, List.cons_append] at h
    have hy : y ∈ common ys (x :: xs) := by simp [hc]
    exact absurd ((List.cons.inj h).1 ▸ (mem_common.1 hy).1) hx

end Common

namespace Pass

variable {S : Stage} {s : Pass Block} {index : Index Block} {o n : Block} {os ns ns' : List Block}

/-- No old entry has been moved to the front, and the old entries that are still to be placed stand
in the same order on both sides. -/
structure InOrder (s : Pass Block) : Prop where
  order : common s.old s.new = common s.new s.old
  unmoved : ∀ e ∈ s.old, e ∉ s.front

namespace InOrder

theorem of_nil {s : Pass Block} (h : s.old = []) : s.InOrder := by
  refine ⟨?_, ?_⟩
  · rw [h]
    simp [common]
  · rw [h]
    exact fun e he => by cases he

theorem advance (h : s.Sound S) (hi : s.InOrder) (ho : s.old = n :: os) (hn : s.new = n :: ns) :
    ({ s with old := os, new := ns, front := n :: s.front } : Pass Block).InOrder := by
  have hos := h.old_nodup
  have hns := h.nodup_new
  have horder := hi.order
  rw [ho, List.nodup_cons] at hos
  rw [hn, List.nodup_cons] at hns
  rw [ho, hn, common_cons_of_mem (by simp), common_cons_of_mem (by simp), common_cons_right hos.1,
    common_cons_right hns.1] at horder
  refine ⟨(List.cons.inj horder).2, fun e he => ?_⟩
  have hne : e ≠ n := fun hen => hos.1 (hen ▸ he)
  have hf := hi.unmoved e (by simp [ho, he])
  simp [hne, hf]

theorem retreat (h : s.Sound S) (hi : s.InOrder) (ho : s.old = os ++ [n]) (hn : s.new = ns ++ [n]) :
    ({ s with old := os, new := ns, back := n :: s.back } : Pass Block).InOrder := by
  have hos := h.old_nodup
  have hns := h.nodup_new
  have horder := hi.order
  rw [ho] at hos
  rw [hn] at hns
  have hnos : n ∉ os := fun hm => List.disjoint_of_nodup_append hos hm (List.mem_singleton_self n)
  have hnns : n ∉ ns := fun hm => List.disjoint_of_nodup_append hns hm (List.mem_singleton_self n)
  have hlast : ∀ xs ys : List Block, n ∉ xs → common (xs ++ [n]) (ys ++ [n]) = common xs ys ++ [n] := by
    intro xs ys hxs
    rw [common_append, common_cons_of_mem (by simp)]
    refine congrArg (· ++ [n]) (common_congr fun x hx => ?_)
    have hne : x ≠ n := fun hxn => hxs (hxn ▸ hx)
    simp [hne]
  rw [ho, hn, hlast os ns hnos, hlast ns os hnns] at horder
  refine ⟨List.append_cancel_right horder, fun e he => ?_⟩
  exact hi.unmoved e (by simp [ho, he])

/-- The ends are never exchanged. -/
theorem not_swapEnds {z : Block} (hi : s.InOrder) (ho : s.old = o :: (os ++ [z]))
    (hn : s.new = z :: (ns ++ [o])) (hne : o ≠ z) : False := by
  have horder := hi.order
  rw [ho, hn, common_cons_of_mem (by simp), common_cons_of_mem (by simp)] at horder
  exact hne (List.cons.inj horder).1

/-- An old entry that is not in the new list is dropped. -/
theorem drop (hi : s.InOrder) (ho : s.old = o :: os) (hnew : o ∉ s.new) {s' : Pass Block}
    (hold' : s'.old = os) (hnew' : s'.new = s.new) (hfront' : s'.front = s.front) : s'.InOrder := by
  have horder := hi.order
  rw [ho, common_cons_of_not_mem hnew, common_cons_right hnew] at horder
  refine ⟨by rw [hold', hnew', horder], fun e he => ?_⟩
  rw [hfront']
  exact hi.unmoved e (by rw [ho]; exact List.mem_cons_of_mem o (hold' ▸ he))

/-- New entries are placed in front of the first old one, and they are none of the old ones. -/
theorem placeRun (hi : s.InOrder) (ho : s.old = o :: os) (hn : s.new = ns ++ o :: ns')
    (hons : o ∉ ns) {s' : Pass Block} (hold' : s'.old = o :: os) (hnew' : s'.new = o :: ns')
    (hfront' : s'.front = ns.reverse ++ s.front) : s'.InOrder := by
  have horder := hi.order
  rw [ho, hn] at horder
  have hnone := common_eq_nil_of_order horder hons
  rw [common_append, hnone, List.nil_append] at horder
  have hold : ∀ e ∈ o :: os, e ∉ ns := by
    intro e he hm
    have hmem : e ∈ common ns (o :: os) := mem_common.2 ⟨hm, he⟩
    rw [hnone] at hmem
    cases hmem
  refine ⟨?_, fun e he => ?_⟩
  · rw [hold', hnew', ← horder]
    exact common_congr fun e he => by simp [hold e he]
  · have hf := hi.unmoved e (by rw [ho, ← hold']; exact he)
    rw [hfront', List.mem_append, List.mem_reverse, not_or]
    exact ⟨hold e (hold' ▸ he), hf⟩

/-- A new entry takes the place of an old one that comes later in the new list. It is no old one. -/
theorem replace (h : s.Sound S) (hi : s.InOrder) (ho : s.old = o :: os) (hn : s.new = n :: ns)
    (hne : o ≠ n) (hnew : o ∈ s.new) {s' : Pass Block} (hold' : s'.old = os) (hnew' : s'.new = ns)
    (hfront' : s'.front = n :: s.front) : s'.InOrder := by
  have horder := hi.order
  have hos := h.old_nodup
  rw [ho, List.nodup_cons] at hos
  rw [ho, common_cons_of_mem hnew, hn] at horder
  have hnot : n ∉ o :: os := by
    intro hm
    rw [common_cons_of_mem hm] at horder
    exact hne (List.cons.inj horder).1
  have hnos : n ∉ os := fun hm => hnot (List.mem_cons_of_mem o hm)
  rw [common_cons_of_not_mem hnot, common_cons_right hnos] at horder
  have hfilter := congrArg (List.filter (· ≠ o)) horder
  have hself : (common os ns).filter (· ≠ o) = common os ns := by
    rw [List.filter_eq_self]
    intro e he
    have heo : e ≠ o := fun heo => hos.1 (heo ▸ (mem_common.1 he).1)
    simpa using heo
  rw [List.filter_cons_of_neg (by simp), hself, filter_common hos.1] at hfilter
  refine ⟨by rw [hold', hnew', hfilter], fun e he => ?_⟩
  have hen : e ≠ n := fun hen => hnos (hen ▸ hold' ▸ he)
  have hf := hi.unmoved e (by rw [ho]; exact List.mem_cons_of_mem o (hold' ▸ he))
  rw [hfront', List.mem_cons, not_or]
  exact ⟨hen, hf⟩

theorem lookUp_of_index (h : s.Sound S) (hi : s.InOrder) (hindex : s.index = some index)
    (ho : s.old = o :: os) (hn : s.new = n :: ns) (hne : o ≠ n) : (s.lookUp S.site o n).InOrder := by
  have hx := h.indexed index hindex
  have hs : ({ s with index := some index } : Pass Block) = s := by rw [← hindex]
  simp only [Pass.lookUp, hindex, Option.getD_some, hs]
  split
  · rename_i hp
    refine hi.drop ho (fun hm => ?_) (by rw [ho]; rfl) rfl rfl
    exact Indexed.not_mem_of_position? hp (hx.new o hm)
  · rename_i i hp
    split_ifs with hin hrun
    · obtain ⟨hsplit, hnot⟩ := h.split_new hx hp hin.1 hin.2
      refine hi.placeRun ho hsplit hnot ?_ ?_ rfl
      · rw [← ho, old_insertAll]
        rfl
      · have hdrop := hsplit
        conv_lhs at hdrop => rw [← List.take_append_drop (i - s.settled) s.new]
        exact List.append_cancel_left hdrop
    · obtain ⟨hsplit, hnot⟩ := h.split_new hx hp hin.1 hin.2
      refine hi.replace h ho hn hne ?_ (by rw [ho]; rfl) (by rw [hn]; rfl) rfl
      rw [hsplit]
      simp
    · exact absurd (h.mem_front_of_passed hx ho hn hne hp hin) (hi.unmoved o (by simp [ho]))

theorem step (h : s.Sound S) (hi : s.InOrder) (hnew : s.new ≠ []) : (s.step S.site).InOrder := by
  unfold Pass.step
  split
  · rename_i ho
    exact of_nil (by simp [Pass.placeRest, ho])
  · rename_i hn
    exact absurd hn hnew
  · rename_i o os n ns ho hn
    have holast := dropLast_append_getLastD o os
    have hnlast := dropLast_append_getLastD n ns
    split_ifs with heq hlast hone hswap
    · subst heq
      exact hi.advance h ho hn
    · rw [← hlast] at hnlast ⊢
      exact hi.retreat h (by rw [ho, holast]) (by rw [hn, hnlast])
    · exact of_nil (by simp [Pass.exchangeLast])
    · have hos : os ≠ [] := fun hnil => heq (by rw [hswap.2, hnil]; rfl)
      have hns : ns ≠ [] := fun hnil => heq (by rw [hswap.1, hnil]; rfl)
      rw [List.dropLast_cons_of_ne_nil hos, ← hswap.2, List.cons_append] at holast
      rw [List.dropLast_cons_of_ne_nil hns, ← hswap.1, List.cons_append] at hnlast
      exact (hi.not_swapEnds (ho.trans holast.symm) (hn.trans hnlast.symm) heq).elim
    · exact lookUp_of_index (s := { s with index := some (s.index.getD ⟨s.new, s.settled⟩) })
        h.index_new ⟨hi.order, hi.unmoved⟩ rfl ho hn heq

theorem settle (h : s.Sound S) (hi : s.InOrder) : (s.settle S.site).InOrder := by
  fun_induction Pass.settle s S.site with
  | case1 => exact hi
  | case2 s hnew ih => exact ih (h.step (by simpa using hnew)) (hi.step h (by simpa using hnew))

end InOrder

end Pass

variable {S : Stage} {a b : List Block}

/-- If the entries that are in both lists stand in the same order in both, none of them is left over.
-/
theorem leftover_of_same_order (h : S.Shows S.origin [] a) (hb : b.Nodup)
    (hmem : ∀ e ∈ b, e ∈ S.blocks) (horder : common a b = common b a) :
    ∀ e ∈ b, e ∉ Pass.leftover a b := by
  intro e he hl
  rw [← Pass.old_settle_start S.origin S.site] at hl
  have hsound := Pass.sound_start h hb hmem
  have hin : (Pass.start S.origin a b).InOrder := ⟨horder, by simp [Pass.start]⟩
  have hend := hin.settle hsound
  have htarget : (Pass.start S.origin a b).target = b := by simp [Pass.target, Pass.start]
  have hmem' : e ∈ ((Pass.start S.origin a b).settle S.site).target := by
    rw [Pass.target_settle, htarget]
    exact he
  rw [Pass.target, Pass.new_settle, List.append_nil, List.mem_append, List.mem_reverse] at hmem'
  exact hmem'.elim (hend.unmoved e hl) (hsound.settle.old_back e hl)

/-- A reconciliation returns the new list. What the container shows then is the new list without the
entries that are left over when all new ones have been placed, between the nodes that stood around
the old list, and nothing of an entry that is only in the old list. So it shows all of the new list
exactly if none of its entries is left over, and in particular if the entries that are in both lists
stand in the same order in both. -/
theorem reconcile_exact_iff (h : S.Shows S.origin [] a) (hb : b.Nodup)
    (hmem : ∀ e ∈ b, e ∈ S.blocks) :
    let done := S.origin.reconcile S.site a b
    done.result = b ∧
    done.document.children S.container = S.ahead
      ++ (b.filter (· ∉ Pass.leftover a b)).flatMap S.span ++ S.behind ∧
    (∀ e ∈ a, e ∉ b → ∀ n ∈ S.span e, n ∉ done.document.children S.container) ∧
    (done.document.children S.container = S.ahead ++ b.flatMap S.span ++ S.behind ↔
      ∀ e ∈ b, e ∉ Pass.leftover a b) ∧
    (common a b = common b a → ∀ e ∈ b, e ∉ Pass.leftover a b) := by
  intro done
  have hdone : S.Shows done.document [] (b.filter (· ∉ Pass.leftover a b)) :=
    shows_reconcile h hb hmem
  have hchildren := hdone.children
  rw [S.part_nil] at hchildren
  have htarget : (Pass.start S.origin a b).target = b := by simp [Pass.target, Pass.start]
  refine ⟨(Pass.result_run _ _).trans htarget, hchildren, ?_, ?_, leftover_of_same_order h hb hmem⟩
  · intro e he heb n hn hc
    have hlive := hdone.live_of_parent (h.live_mem e he) hn (hdone.forest.parent_of_mem hc)
    exact heb (List.mem_filter.1 hlive).1
  · constructor
    · intro hall e he hl
      -- the first node of the entry would stand in the container
      have heq := hdone.holds e (hmem e he)
      have hfirst : e.first ∈ S.span e := by
        rw [heq.eq_first_cons]
        exact List.mem_cons_self ..
      have hc : e.first ∈ done.document.children S.container := by
        rw [hall]
        simp only [List.mem_append, List.mem_flatMap]
        exact .inl (.inr ⟨e, he, hfirst⟩)
      have hlive := hdone.live_of_parent (hmem e he) hfirst (hdone.forest.parent_of_mem hc)
      exact absurd hl (by simpa using (List.mem_filter.1 hlive).2)
    · intro hnone
      have hfilter : b.filter (· ∉ Pass.leftover a b) = b := by
        rw [List.filter_eq_self]
        exact fun e he => by simpa using hnone e he
      rw [hchildren, hfilter]

/-- An element with four texts. -/
def fourTexts : Document :=
  let texts := ["1", "2", "3", "4"].foldl (fun d t => (d.create .text t).2)
    (Document.empty.create (.element "main" .html) "").2
  [1, 2, 3, 4].foldl (fun d i => d.attach ⟨0⟩ ⟨i⟩ none) texts

theorem forest_fourTexts : fourTexts.Forest := by
  have htexts := ((((Document.forest_empty.create (.element "main" .html) "").create .text "1").create .text
    "2").create .text "3").create .text "4"
  refine (((htexts.attach ?_ none).attach ?_ none).attach ?_ none).attach ?_ none
  all_goals exact .of_root (by decide) (by decide) (by decide) (by decide) (by decide) (by decide)

/-- The texts as blocks in the element. -/
def fourTextsStage : Stage where
  origin := fourTexts
  container := ⟨0⟩
  blocks := [.single ⟨1⟩, .single ⟨2⟩, .single ⟨3⟩, .single ⟨4⟩]
  span := Block.nodes
  ahead := []
  behind := []
  has_container := by decide
  inner_container := by decide
  holds_origin e he := by
    simp only [List.mem_cons, List.not_mem_nil, or_false] at he
    rcases he with rfl | rfl | rfl | rfl
    all_goals exact Document.holds_single (by decide) (by decide)
  apart := by decide
  outside := by decide
  clear_origin e he n hn ha := by
    have hroot := ha.eq_of_root (by decide)
    subst hroot
    revert e
    decide

theorem shows_fourTexts : fourTextsStage.Shows fourTexts [] fourTextsStage.blocks where
  origin_forest := forest_fourTexts
  since := .refl forest_fourTexts _
  live_mem _ he := he
  children := by decide
  kept := by decide
  stowed _ he hlive := absurd he hlive

/-- The last of four texts is moved to the front. -/
theorem reconcile_four_texts :
    let b : List Block := [.single ⟨4⟩, .single ⟨1⟩, .single ⟨2⟩, .single ⟨3⟩]
    fourTextsStage.Shows fourTextsStage.origin [] fourTextsStage.blocks ∧ b.Nodup ∧
      (∀ e ∈ b, e ∈ fourTextsStage.blocks) ∧
      ((fourTexts.reconcile fourTextsStage.site fourTextsStage.blocks b).document.children ⟨0⟩ =
        [⟨4⟩, ⟨1⟩, ⟨2⟩, ⟨3⟩] ↔ ∀ e ∈ b, e ∉ Pass.leftover fourTextsStage.blocks b) := by
  intro b
  have hb : b.Nodup := by decide
  have hmem : ∀ e ∈ b, e ∈ fourTextsStage.blocks := by decide
  exact ⟨shows_fourTexts, hb, hmem, (reconcile_exact_iff shows_fourTexts hb hmem).2.2.2.1⟩

end LiveMarkup
