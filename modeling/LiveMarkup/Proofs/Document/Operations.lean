import LiveMarkup.Proofs.Document.Stage
/-!
# The operations of a reconciliation

What inserting, removing, replacing and exchanging blocks does to the blocks that a container shows,
first for a document and then for a pass: the others keep their order, and the blocks that are moved
stand where they are asked for, wherever they were before.
-/

namespace LiveMarkup

open Document

/-- A stage as the place of a reconciliation. -/
def Stage.site (S : Stage) : Site Block where
  container := S.container
  before := S.behind.head?
  find block access d := d.access block access

namespace Stage

variable {S : Stage} {d d' : Document} {e x n o z : Block}
  {cut cut' live live' front mid back : List Block}

theorem part_nil (S : Stage) : S.part [] = S.span := by
  funext e
  exact part_of_not_mem List.not_mem_nil

/-- Collected blocks stay collected while another one is moved. -/
theorem Ready.moved (hr : S.Ready d e) (h : S.Shows d cut live) (h' : S.Shows d' cut' live')
    (hm : Moved d d' (S.span x)) (he : e ∈ S.blocks) (hx : x ∈ S.blocks) (hne : e ≠ x) :
    S.Ready d' e := by
  rintro g rfl
  have hf : g.fragment ∈ (Block.group g).fragments := List.mem_singleton_self _
  have heq : d'.children g.fragment = d.children g.fragment := by
    refine hm.children_eq (fun m hm' hmf => ?_) (fun m hm' hmf => ?_)
    · exact S.span_disjoint hx he hne hm' (h.mem_span_of_mem_fragment he hf hmf)
    · exact S.span_disjoint hx he hne hm' (h'.mem_span_of_mem_fragment he hf hmf)
  exact heq.trans (hr g rfl)

namespace Shows

theorem counted (h : S.Shows d cut live) (k : Nat) : S.Shows (d.counted k) cut live where
  origin_forest := h.origin_forest
  since := ⟨h.forest.counted k, h.since.relinked.trans (relinked_counted d k), h.since.children,
    h.since.notices⟩
  live_mem := h.live_mem
  children := h.children
  kept := h.kept
  stowed e he hlive := ⟨(h.stowed e he hlive).absent, (h.stowed e he hlive).ready⟩

theorem not_mem_around (h : S.Shows d cut (front ++ e :: back)) : e ∉ front ++ back := by
  have hnd := h.nodup
  intro he
  rcases List.mem_append.1 he with hf | hb
  · exact List.disjoint_of_nodup_append hnd hf (by simp)
  · exact (List.nodup_cons.1 (List.nodup_append.1 hnd).2.1).1 hb

/-- Which blocks are cut no longer matters when the one that is has been taken away. -/
theorem uncut (h : S.Shows d [e] live) (he : e ∉ live) : S.Shows d [] live := by
  refine h.congr fun x hx => ?_
  have hne : x ≠ e := fun hxe => he (hxe ▸ hx)
  simp [hne]

/-- Removing a block. -/
theorem shows_remove (h : S.Shows d [] (front ++ e :: back)) :
    S.Shows ((d.access e .remove).2.removeChild S.container e.first) [] (front ++ back) := by
  have he : e ∈ front ++ e :: back := by simp
  have hcut := h.shows_collectTail he List.not_mem_nil
  have hgone := hcut.shows_detach (List.mem_singleton_self e)
  rw [removeChild_eq (hcut.parent_of_cut he (List.mem_singleton_self e))]
  exact (hgone.uncut h.not_mem_around).counted 1

/-- Putting a block into the place of another one. -/
theorem shows_replace (h : S.Shows d [] (front ++ o :: back)) (hn : n ∈ S.blocks) (hne : o ≠ n) :
    S.Shows (((d.access n .insert).2.access o .remove).2.replaceChild S.container n.handle o.first)
      [] (front.filter (· ≠ n) ++ n :: back.filter (· ≠ n)) := by
  have ho : o ∈ S.blocks := h.live_mem o (by simp)
  have hself : o ∈ [o] := List.mem_singleton_self o
  obtain ⟨hc, hr⟩ := h.shows_collect hn
  rw [collected_append, collected_cons_of_ne hne] at hc
  have hmem : o ∈ collected n front ++ o :: collected n back := by simp
  have hcut := hc.shows_collectTail hmem List.not_mem_nil
  have hready := hr.moved hc hcut (hc.moved_collectTail hmem List.not_mem_nil) hn ho hne.symm
  have hplace := hcut.shows_place hn hready
  have hcuts : [o].filter (· ≠ n) = [o] := by simp [hne]
  have hback : (o :: collected n back).filter (· ≠ n) = o :: back.filter (· ≠ n) := by
    rw [List.filter_cons_of_pos (by simpa using hne), filter_collected]
  rw [hcut.head?_first ho, hcuts, hback, filter_collected, ← List.singleton_append (x := n),
    ← List.append_assoc] at hplace
  have hgone := hplace.shows_detach hself
  rw [List.append_assoc] at hgone
  have hdistinct : n.handle ≠ o.first := by
    intro he
    refine S.apart n hn o ho hne _ (S.holds_origin n hn).handle_mem ?_
    rw [he, (S.holds_origin o ho).eq_first_cons]
    simp
  rw [replaceChild_eq hcut.forest (hcut.parent_of_cut hmem hself) hdistinct]
  · refine hgone.uncut ?_
    have hnot := hplace.not_mem_around
    rwa [List.append_assoc] at hnot
  · intro hsolid
    have hholds := hcut.holds n hn
    have hspan : n.handle ∈ S.span n := by
      refine (List.mem_append.1 hholds.handle_mem).resolve_left fun hf => ?_
      rw [hholds.fragment _ hf] at hsolid
      cases hsolid
    exact ⟨hcut.has, hholds.has _ hspan, hcut.inner, hsolid, hcut.clear hn hspan⟩

/-- Exchanging two blocks: the second one is put behind what is left of the first, and the first one
in front of what followed the second. -/
theorem shows_swap (h : S.Shows d [] (front ++ o :: (mid ++ z :: back))) :
    let last := (d.access z .remove).2
    let moved := (last.access z .insert).2
    let cut := (moved.access o .remove).2
    let there := cut.insertBefore S.container z.handle (cut.nextSibling? o.first)
    S.Shows ((there.access o .insert).2.insertBefore S.container o.handle
      (last.nextSibling? z.first)) [] (front ++ z :: (mid ++ o :: back)) := by
  intro last moved cut there
  have hnd := h.nodup
  have ho : o ∈ S.blocks := h.live_mem o (by simp)
  have hz : z ∈ S.blocks := h.live_mem z (by simp)
  have hne : o ≠ z := by
    rintro rfl
    exact h.not_mem_around (by simp)
  have hnot : (∀ x ∈ front ++ mid ++ back, x ≠ o) ∧ ∀ x ∈ front ++ mid ++ back, x ≠ z := by
    have hzn := h
    rw [← List.cons_append, ← List.append_assoc] at hzn
    refine ⟨?_, ?_⟩
    · rintro x hx rfl
      refine h.not_mem_around ?_
      simp only [List.mem_append, List.mem_cons] at hx ⊢
      tauto
    · rintro x hx rfl
      refine hzn.not_mem_around ?_
      simp only [List.mem_append, List.mem_cons] at hx ⊢
      tauto
  have hfilter : ∀ (y : Block) (l : List Block), (∀ x ∈ l, x ∈ front ++ mid ++ back) →
      (y = o ∨ y = z) → l.filter (· ≠ y) = l := by
    intro y l hl hy
    rw [List.filter_eq_self]
    intro x hx
    rcases hy with rfl | rfl
    · simpa using hnot.1 x (hl x hx)
    · simpa using hnot.2 x (hl x hx)
  have hfront := fun y => hfilter y front (by simp +contextual)
  have hmid := fun y => hfilter y mid (by simp +contextual)
  have hback := fun y => hfilter y back (by simp +contextual)
  -- the last block is cut, then collected
  have h₁ : S.Shows last [z] (front ++ o :: (mid ++ z :: back)) :=
    h.shows_collectTail (by simp) List.not_mem_nil
  have hafter : last.nextSibling? z.first = (back.flatMap S.span ++ S.behind).head? := by
    have hsplit := h₁
    rw [← List.cons_append, ← List.append_assoc] at hsplit
    rw [hsplit.nextSibling?_of_cut (List.mem_singleton_self z)]
    have hparts : back.flatMap (S.part [z]) = back.flatMap S.span := by
      refine List.flatMap_congr fun x hx => part_of_not_mem ?_
      simpa using hnot.2 x (by simp [hx])
    rw [hparts]
  obtain ⟨h₂, hr⟩ := h₁.shows_collect hz
  rw [collected_append, collected_cons_of_ne hne] at h₂
  -- the first block is cut, and the last one put behind it
  have hmem : o ∈ collected z front ++ o :: collected z (mid ++ z :: back) := by simp
  have hcut : o ∉ [z] := by simpa using hne
  have h₃ : S.Shows cut [o, z] (collected z front ++ o :: collected z (mid ++ z :: back)) :=
    h₂.shows_collectTail hmem hcut
  have hready : S.Ready cut z :=
    hr.moved h₂ h₃ (h₂.moved_collectTail hmem hcut) hz ho hne.symm
  have hnext := h₃.nextSibling?_of_cut (by simp)
  have hsplit : collected z front ++ o :: collected z (mid ++ z :: back)
      = (collected z front ++ [o]) ++ collected z (mid ++ z :: back) := by simp
  rw [hsplit] at h₃
  have h₄ := h₃.shows_place hz hready
  have hcuts : [o, z].filter (· ≠ z) = [o] := by simp [hne]
  have hone : [o].filter (· ≠ z) = [o] := by simp [hne]
  have hrest : (z :: back).filter (· ≠ z) = back := by
    rw [List.filter_cons_of_neg (by simp), hback z (.inr rfl)]
  have hlive : front ++ [o] ++ z :: (mid ++ back) = (front ++ o :: z :: mid) ++ back := by simp
  rw [← hnext, List.filter_append, filter_collected, filter_collected, List.filter_append, hrest,
    hfront z (.inr rfl), hmid z (.inr rfl), hcuts, hone, hlive] at h₄
  -- the first block is put in front of what followed the last one
  have hhead : back.head? ≠ some o := fun hb => hnot.1 o (by simp [List.mem_of_mem_head? hb]) rfl
  have h₅ := h₄.shows_insert ho hhead
  have hparts : back.flatMap (S.part [o]) = back.flatMap S.span := by
    refine List.flatMap_congr fun x hx => part_of_not_mem ?_
    simpa using hnot.1 x (by simp [hx])
  have hmoved : (o :: z :: mid).filter (· ≠ o) = z :: mid := by
    rw [List.filter_cons_of_neg (by simp), List.filter_cons_of_pos (by simpa using hne.symm),
      hmid o (.inl rfl)]
  have hnone : [o].filter (· ≠ o) = [] := by simp
  rw [hparts, ← hafter, List.filter_append, hmoved, hnone, hfront o (.inl rfl), hback o (.inl rfl),
    List.append_assoc, List.cons_append] at h₅
  exact h₅

end Shows

/-! ### The same in a pass -/

variable {s : Pass Block} {entries : List Block}

theorem head?_filter (S : Stage) (hS : ∀ x ∈ back, S.span x ≠ []) (hhead : back.head? ≠ some e) :
    ((back.filter (· ≠ e)).flatMap S.span ++ S.behind).head?
      = (back.flatMap S.span ++ S.behind).head? := by
  cases back with
  | nil => rfl
  | cons x rest =>
    have hne : x ≠ e := fun hxe => hhead (hxe ▸ rfl)
    rw [List.filter_cons_of_pos (by simpa using hne)]
    cases hx : S.span x with
    | nil => exact absurd hx (hS x (by simp))
    | cons n l => simp [hx]

namespace Shows

theorem pass_insert (h : S.Shows s.document [] (front ++ back)) (he : e ∈ S.blocks)
    (hhead : back.head? ≠ some e) :
    S.Shows (s.insert S.site e (back.flatMap S.span ++ S.behind).head?).document []
      (front.filter (· ≠ e) ++ e :: back.filter (· ≠ e)) := by
  have hins := h.shows_insert he hhead
  rw [part_nil] at hins
  show S.Shows ((s.document.access e .insert).2.insertBefore S.container
    (s.document.access e .insert).1 _) [] _
  rw [access_insert_fst]
  exact hins

theorem pass_insertAll (h : S.Shows s.document [] (front ++ back)) (hmem : ∀ e ∈ entries, e ∈ S.blocks)
    (hnd : entries.Nodup) (hhead : ∀ e ∈ entries, back.head? ≠ some e) :
    S.Shows (s.insertAll S.site entries (back.flatMap S.span ++ S.behind).head?).document []
      (front.filter (· ∉ entries) ++ entries ++ back.filter (· ∉ entries)) := by
  induction entries generalizing s front back with
  | nil =>
    have hnil : ∀ l : List Block, l.filter (· ∉ ([] : List Block)) = l := by simp
    rw [hnil, hnil, List.append_nil]
    exact h
  | cons e rest ih =>
    have he := hmem e (by simp)
    have hhead' := hhead e (by simp)
    have hspan : ∀ x ∈ back, S.span x ≠ [] := by
      intro x hx
      rw [(h.holds x (h.live_mem x (by simp [hx]))).eq_first_cons]
      exact List.cons_ne_nil _ _
    have hins := h.pass_insert he hhead'
    rw [← List.singleton_append, ← List.append_assoc] at hins
    have hrest := ih hins (fun x hx => hmem x (by simp [hx])) (List.nodup_cons.1 hnd).2 ?_
    · rw [S.head?_filter hspan hhead'] at hrest
      have hfilter : ∀ l : List Block,
          (l.filter (· ≠ e)).filter (· ∉ rest) = l.filter (· ∉ e :: rest) := by
        intro l
        rw [List.filter_filter]
        refine List.filter_congr fun x _ => ?_
        by_cases hx : x = e <;> simp [hx]
      have hone : [e].filter (· ∉ rest) = [e] := by simp [(List.nodup_cons.1 hnd).1]
      rw [List.filter_append, hfilter, hfilter, hone, List.append_assoc, List.append_assoc,
        List.singleton_append] at hrest
      rw [List.append_assoc, List.cons_append]
      exact hrest
    · intro x hx
      cases back with
      | nil => exact fun hh => by cases hh
      | cons y l =>
        have hye : y ≠ e := fun hye => hhead' (hye ▸ rfl)
        rw [List.filter_cons_of_pos (by simpa using hye)]
        exact hhead x (by simp [hx])

theorem pass_remove (h : S.Shows s.document [] (front ++ e :: back)) :
    S.Shows (s.remove S.site e).document [] (front ++ back) := by
  have hrem := h.shows_remove
  show S.Shows ((s.document.access e .remove).2.removeChild S.container
    (s.document.access e .remove).1) [] _
  rw [access_remove_fst]
  exact hrem

theorem pass_replace (h : S.Shows s.document [] (front ++ o :: back)) (hn : n ∈ S.blocks)
    (hne : o ≠ n) :
    S.Shows (s.replace S.site n o).document []
      (front.filter (· ≠ n) ++ n :: back.filter (· ≠ n)) := by
  have hrep := h.shows_replace hn hne
  show S.Shows (((s.document.access n .insert).2.access o .remove).2.replaceChild S.container
    (s.document.access n .insert).1 ((s.document.access n .insert).2.access o .remove).1) [] _
  rw [access_insert_fst, access_remove_fst]
  exact hrep

theorem pass_swapEnds (h : S.Shows s.document [] (front ++ o :: (mid ++ z :: back))) :
    S.Shows (s.swapEnds S.site o z).document [] (front ++ z :: (mid ++ o :: back)) := by
  have hswap := h.shows_swap
  simp only [Pass.swapEnds, Pass.insert, Pass.find, Stage.site, access_insert_fst,
    access_remove_fst]
  exact hswap

end Shows

end Stage

end LiveMarkup
