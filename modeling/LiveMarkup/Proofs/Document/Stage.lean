import LiveMarkup.Document.Reconcile
import LiveMarkup.Proofs.Document.Blocks
/-!
# Blocks in a container

A `Stage` is a container in which some of many blocks stand between nodes that are none of theirs.
`Stage.Shows` says which blocks stand there, in which order, and that every other block can be
fetched. Everything that a reconciliation does to a document is one of four things, and each of them
changes what is shown in one way only: a block is collected (`shows_collect`), put in front of another
one (`shows_place`), cut down to its first node (`shows_collectTail`), or what is left of it is taken
away (`shows_detach`).
-/

namespace LiveMarkup

/-- A container, the blocks that may stand in it with the nodes that each of them spans, and the nodes
that stand in front of all of them and behind them. The blocks have nothing in common, the container
is none of their fragments, and it is not inside any of them. -/
structure Stage where
  origin : Document
  container : NodeId
  blocks : List Block
  span : Block → List NodeId
  ahead : List NodeId
  behind : List NodeId
  has_container : origin.Has container
  inner_container : origin.leaf? container = none
  holds_origin : ∀ e ∈ blocks, origin.Holds e (span e)
  apart : ∀ e ∈ blocks, ∀ x ∈ blocks, x ≠ e →
    ∀ n ∈ e.fragments ++ span e, n ∉ x.fragments ++ span x
  outside : ∀ e ∈ blocks, container ∉ e.fragments
  clear_origin : ∀ e ∈ blocks, ∀ n ∈ span e, ¬ origin.Above container n

namespace Document

/-- A block is not in `c`, and it can be collected. -/
structure Stowed (d : Document) (c : NodeId) (e : Block) (span : List NodeId) : Prop where
  absent : ∀ n ∈ span, d.parent? n ≠ some c
  ready : ∀ g, e = .group g → d.Whole g span ∨ d.Parted g span

end Document

namespace Stage

open Document

variable {S : Stage} {d d' : Document} {e x : Block} {g : Group} {n : NodeId}
  {cut cut' live live' front back : List Block}

/-- The nodes of a block that are in the container: its span, or the first node of one that is cut.
-/
def part (S : Stage) (cut : List Block) (e : Block) : List NodeId :=
  if e ∈ cut then (S.span e).take 1 else S.span e

/-- The nodes of a group in the container that are in its fragment. -/
def remainder (S : Stage) (cut : List Block) (e : Block) : List NodeId :=
  if e ∈ cut then (S.span e).tail else []

/-- Since the beginning only nodes of the blocks have been moved, and now the blocks `live` are what
the container shows, those in `cut` with their first node only. -/
structure Shows (S : Stage) (d : Document) (cut live : List Block) : Prop where
  origin_forest : S.origin.Forest
  since : Moved S.origin d (S.blocks.flatMap S.span)
  live_mem : ∀ e ∈ live, e ∈ S.blocks
  children : d.children S.container = S.ahead ++ live.flatMap (S.part cut) ++ S.behind
  kept : ∀ e ∈ live, ∀ f ∈ e.fragments, d.children f = S.remainder cut e
  stowed : ∀ e ∈ S.blocks, e ∉ live → d.Stowed S.container e (S.span e)

theorem part_of_mem (h : e ∈ cut) : S.part cut e = (S.span e).take 1 := if_pos h

theorem part_of_not_mem (h : e ∉ cut) : S.part cut e = S.span e := if_neg h

theorem remainder_of_mem (h : e ∈ cut) : S.remainder cut e = (S.span e).tail := if_pos h

theorem remainder_of_not_mem (h : e ∉ cut) : S.remainder cut e = [] := if_neg h

theorem part_append_remainder (S : Stage) (cut : List Block) (e : Block) :
    S.part cut e ++ S.remainder cut e = S.span e := by
  by_cases h : e ∈ cut
  · rw [part_of_mem h, remainder_of_mem h]
    cases S.span e <;> rfl
  · rw [part_of_not_mem h, remainder_of_not_mem h, List.append_nil]

theorem mem_span_of_mem_part (h : n ∈ S.part cut e) : n ∈ S.span e := by
  rw [← S.part_append_remainder cut e]
  exact List.mem_append_left _ h

theorem mem_span_of_mem_remainder (h : n ∈ S.remainder cut e) : n ∈ S.span e := by
  rw [← S.part_append_remainder cut e]
  exact List.mem_append_right _ h

theorem part_congr (h : e ∈ cut ↔ e ∈ cut') : S.part cut e = S.part cut' e := by
  simp only [part, h]

theorem remainder_congr (h : e ∈ cut ↔ e ∈ cut') : S.remainder cut e = S.remainder cut' e := by
  simp only [remainder, h]

theorem span_disjoint (S : Stage) (he : e ∈ S.blocks) (hx : x ∈ S.blocks) (hne : x ≠ e)
    (hn : n ∈ S.span e) : n ∉ S.span x :=
  fun hn' => S.apart e he x hx hne n (List.mem_append_right _ hn) (List.mem_append_right _ hn')

theorem fragment_ne (S : Stage) (he : e ∈ S.blocks) (hx : x ∈ S.blocks) (hne : x ≠ e)
    {f f' : NodeId} (hf : f ∈ e.fragments) (hf' : f' ∈ x.fragments) : f ≠ f' := by
  rintro rfl
  exact S.apart e he x hx hne f (List.mem_append_left _ hf) (List.mem_append_left _ hf')

/-- Without the nodes of a block, what some blocks show is what the others of them show. -/
theorem filter_flatMap (S : Stage) (he : e ∈ S.blocks) (hlive : ∀ x ∈ live, x ∈ S.blocks) :
    (live.flatMap (S.part cut)).filter (· ∉ S.span e)
      = (live.filter (· ≠ e)).flatMap (S.part cut) := by
  induction live with
  | nil => rfl
  | cons x rest ih =>
    have ihr := ih fun y hy => hlive y (List.mem_cons_of_mem _ hy)
    rw [List.flatMap_cons, List.filter_append, ihr]
    by_cases hx : x = e
    · have hnone : (S.part cut x).filter (· ∉ S.span e) = [] := by
        rw [List.filter_eq_nil_iff]
        intro n hn
        simpa [← hx] using mem_span_of_mem_part hn
      rw [hnone, List.filter_cons_of_neg (by simpa using hx), List.nil_append]
    · have hall : (S.part cut x).filter (· ∉ S.span e) = S.part cut x := by
        refine filter_notMem_of_disjoint fun n hn hn' => ?_
        exact S.span_disjoint he (hlive x (List.mem_cons_self ..)) hx hn
          (mem_span_of_mem_part hn')
      rw [hall, List.filter_cons_of_pos (by simpa using hx), List.flatMap_cons]

namespace Shows

theorem forest (h : S.Shows d cut live) : d.Forest := h.since.forest

theorem has (h : S.Shows d cut live) : d.Has S.container :=
  h.since.relinked.has.2 S.has_container

theorem inner (h : S.Shows d cut live) : d.leaf? S.container = none := by
  rw [h.since.relinked.leaf?, S.inner_container]

theorem holds (h : S.Shows d cut live) (e : Block) (he : e ∈ S.blocks) : d.Holds e (S.span e) :=
  (S.holds_origin e he).relinked h.since.relinked

/-- Nothing above the container is moved, and so it is never inside a block. -/
theorem clear (h : S.Shows d cut live) (he : e ∈ S.blocks) (hn : n ∈ S.span e) :
    ¬ d.Above S.container n := by
  intro ha
  refine S.clear_origin e he n hn (Above.congr (fun a hca => ?_) ha)
  refine h.since.parent? h.origin_forest fun ha' => ?_
  obtain ⟨x, hx, hax⟩ := List.mem_flatMap.1 ha'
  exact S.clear_origin x hx a hax hca

theorem part_ne_nil (h : S.Shows d cut live) (he : e ∈ S.blocks) : S.part cut e ≠ [] := by
  have hspan : S.span e ≠ [] := by
    rw [(h.holds e he).eq_first_cons]
    exact List.cons_ne_nil _ _
  by_cases hcut : e ∈ cut
  · rw [part_of_mem hcut]
    cases hs : S.span e with
    | nil => exact absurd hs hspan
    | cons n rest => exact List.cons_ne_nil n _
  · rwa [part_of_not_mem hcut]

/-- Which blocks are cut matters only as far as they are shown. -/
theorem congr (h : S.Shows d cut live) (hcut : ∀ e ∈ live, e ∈ cut ↔ e ∈ cut') :
    S.Shows d cut' live where
  origin_forest := h.origin_forest
  since := h.since
  live_mem := h.live_mem
  children := by
    have hparts : live.flatMap (S.part cut') = live.flatMap (S.part cut) :=
      List.flatMap_congr fun e he => part_congr (hcut e he).symm
    rw [hparts, h.children]
  kept e he f hf := by rw [h.kept e he f hf, remainder_congr (hcut e he)]
  stowed := h.stowed

/-- A node of a block is in the container only if the block is shown. -/
theorem live_of_parent (h : S.Shows d cut live) (he : e ∈ S.blocks) (hn : n ∈ S.span e)
    (hp : d.parent? n = some S.container) : e ∈ live := by
  by_contra hlive
  exact (h.stowed e he hlive).absent n hn hp

/-- Of a block that is shown, the container has the part that is not in the fragment. -/
theorem mem_part (h : S.Shows d cut live) (he : e ∈ S.blocks) (hn : n ∈ S.span e)
    (hp : d.parent? n = some S.container) : n ∈ S.part cut e := by
  have hlive := h.live_of_parent he hn hp
  rw [← S.part_append_remainder cut e, List.mem_append] at hn
  refine hn.resolve_right fun hrest => ?_
  cases e with
  | single m =>
    have hspan : S.span (.single m) = [m] := (h.holds _ he).spans
    unfold remainder at hrest
    split at hrest
    · rw [hspan] at hrest
      cases hrest
    · cases hrest
  | group g =>
    have hfragment := h.kept _ hlive g.fragment (List.mem_singleton_self _)
    rw [← hfragment] at hrest
    refine S.outside _ he ?_
    rw [← Option.some.inj ((h.forest.parent_of_mem hrest).symm.trans hp)]
    exact List.mem_singleton_self _

/-- The nodes around the blocks are none of theirs. -/
theorem around (h : S.Shows d cut live) (he : e ∈ S.blocks) (hn : n ∈ S.span e) :
    n ∉ S.ahead ∧ n ∉ S.behind := by
  have hnd := h.forest.nodup S.container
  have hmem : n ∈ S.ahead ++ live.flatMap (S.part cut) ++ S.behind →
      n ∈ live.flatMap (S.part cut) := by
    intro hm
    have hp := h.forest.parent_of_mem (h.children ▸ hm)
    exact List.mem_flatMap.2 ⟨e, h.live_of_parent he hn hp, h.mem_part he hn hp⟩
  rw [h.children, List.append_assoc] at hnd
  constructor
  · intro ha
    have hm := hmem (List.mem_append_left _ (List.mem_append_left _ ha))
    exact List.disjoint_of_nodup_append hnd ha (List.mem_append_left _ hm)
  · intro hb
    have hm := hmem (List.mem_append_right _ hb)
    exact List.disjoint_of_nodup_append (List.nodup_append.1 hnd).2.1 hm hb

theorem filter_ahead (h : S.Shows d cut live) (he : e ∈ S.blocks) :
    S.ahead.filter (· ∉ S.span e) = S.ahead :=
  filter_notMem_of_disjoint fun _ hn => (h.around he hn).1

theorem filter_behind (h : S.Shows d cut live) (he : e ∈ S.blocks) :
    S.behind.filter (· ∉ S.span e) = S.behind :=
  filter_notMem_of_disjoint fun _ hn => (h.around he hn).2

/-- No block is shown twice. -/
theorem nodup (h : S.Shows d cut live) : live.Nodup := by
  have hnd := h.forest.nodup S.container
  rw [h.children, List.append_assoc] at hnd
  have hflat := (List.nodup_append.1 (List.nodup_append.1 hnd).2.1).1
  rw [List.nodup_flatMap] at hflat
  refine hflat.2.imp_of_mem ?_
  intro x y hx _ hdisj he
  subst he
  obtain ⟨n, hn⟩ := List.exists_mem_of_ne_nil _ (h.part_ne_nil (h.live_mem x hx))
  exact hdisj hn hn

/-- A group that is shown stands in the container, unless it is cut. -/
theorem standing (h : S.Shows d cut live) (hlive : .group g ∈ live)
    (hcut : .group g ∉ cut) : d.Standing S.container g (S.span (.group g)) := by
  have hkept := h.kept _ hlive g.fragment (List.mem_singleton_self _)
  rw [remainder_of_not_mem hcut] at hkept
  refine ⟨hkept, ?_, ?_⟩
  · intro he
    exact S.outside _ (h.live_mem _ hlive) (he ▸ List.mem_singleton_self _)
  · obtain ⟨l₁, l₂, hsplit⟩ := List.append_of_mem hlive
    refine ⟨S.ahead ++ l₁.flatMap (S.part cut), l₂.flatMap (S.part cut) ++ S.behind, ?_⟩
    rw [h.children, hsplit, List.flatMap_append, List.flatMap_cons, part_of_not_mem hcut]
    simp

/-- Wherever a block is, it can be collected. -/
theorem gatherable (h : S.Shows d cut live) (he : e ∈ S.blocks) :
    d.Gatherable e (S.span e) := by
  cases e with
  | single n => trivial
  | group g =>
    by_cases hlive : .group g ∈ live
    · by_cases hcut : .group g ∈ cut
      · have hkept := h.kept _ hlive g.fragment (List.mem_singleton_self _)
        rw [remainder_of_mem hcut] at hkept
        refine .inr (.inl ⟨hkept, ?_⟩)
        have hfirst : g.first ∈ d.children S.container := by
          rw [h.children]
          have hpart : g.first ∈ S.part cut (.group g) := by
            rw [part_of_mem hcut, (h.holds _ he).eq_cons]
            exact List.mem_singleton_self _
          simp only [List.mem_append, List.mem_flatMap]
          exact .inl (.inr ⟨_, hlive, hpart⟩)
        rw [h.forest.parent_of_mem hfirst]
        intro hc
        exact S.outside _ he (Option.some.inj hc ▸ List.mem_singleton_self _)
      · exact .inr (.inr ⟨S.container, h.standing hlive hcut⟩)
    · rcases (h.stowed _ he hlive).ready g rfl with hw | hp
      · exact .inl hw
      · exact .inr (.inl hp)

/-- Only nodes of the block itself are in its fragment. -/
theorem mem_span_of_mem_fragment (h : S.Shows d cut live) (he : e ∈ S.blocks) {f : NodeId}
    (hf : f ∈ e.fragments) (hn : n ∈ d.children f) : n ∈ S.span e := by
  by_cases hlive : e ∈ live
  · rw [h.kept e hlive f hf] at hn
    exact mem_span_of_mem_remainder hn
  · cases e with
    | single m => cases hf
    | group g =>
      rw [List.mem_singleton.1 hf] at hn
      rcases (h.stowed _ he hlive).ready g rfl with hw | hp
      · exact hw ▸ hn
      · exact List.mem_of_mem_tail (hp.1 ▸ hn)

/-- What changes nothing but the places of the nodes of one block leaves all other blocks as they
are shown. -/
theorem moved (h : S.Shows d cut live) (he : e ∈ S.blocks)
    (hm : Moved d d' (S.span e)) (hcut : ∀ x, x ≠ e → (x ∈ cut' ↔ x ∈ cut))
    (hlive : ∀ x, x ≠ e → (x ∈ live' ↔ x ∈ live))
    (hplace : ∀ n ∈ S.span e, ∀ q, d'.parent? n = some q → q = S.container ∨ q ∈ e.fragments)
    (hchildren : d'.children S.container = S.ahead ++ live'.flatMap (S.part cut') ++ S.behind)
    (hkept : e ∈ live' → ∀ f ∈ e.fragments, d'.children f = S.remainder cut' e)
    (hstowed : e ∉ live' → d'.Stowed S.container e (S.span e)) : S.Shows d' cut' live' := by
  have hfragment : ∀ x ∈ S.blocks, x ≠ e → ∀ f ∈ x.fragments, d'.children f = d.children f := by
    intro x hx hne f hf
    refine hm.children_eq (fun n hn hn' => ?_) (fun n hn hn' => ?_)
    · exact S.span_disjoint he hx hne hn (h.mem_span_of_mem_fragment hx hf hn')
    · rcases hplace n hn f (hm.forest.parent_of_mem hn') with rfl | hf'
      · exact S.outside x hx hf
      · exact S.fragment_ne he hx hne hf' hf rfl
  have hparent : ∀ x ∈ S.blocks, x ≠ e → ∀ n ∈ S.span x, d'.parent? n = d.parent? n :=
    fun x hx hne n hn => hm.parent? h.forest fun hn' => S.span_disjoint he hx hne hn' hn
  refine ⟨h.origin_forest, h.since.trans (hm.mono ?_), ?_, hchildren, ?_, ?_⟩
  · exact fun n hn => List.mem_flatMap.2 ⟨e, he, hn⟩
  · intro x hx
    by_cases hxe : x = e
    · exact hxe ▸ he
    · exact h.live_mem x ((hlive x hxe).1 hx)
  · intro x hx f hf
    by_cases hxe : x = e
    · subst hxe
      exact hkept hx f hf
    · have hx' := (hlive x hxe).1 hx
      rw [hfragment x (h.live_mem x hx') hxe f hf, h.kept x hx' f hf, remainder_congr (hcut x hxe)]
  · intro x hx hxl
    by_cases hxe : x = e
    · subst hxe
      exact hstowed hxl
    · have hst := h.stowed x hx fun hx' => hxl ((hlive x hxe).2 hx')
      refine ⟨fun n hn => ?_, fun g hg => ?_⟩
      · rw [hparent x hx hxe n hn]
        exact hst.absent n hn
      · subst hg
        have hf := hfragment _ hx hxe g.fragment (List.mem_singleton_self _)
        rcases hst.ready g rfl with hw | hp
        · exact .inl (hf.trans hw)
        · refine .inr ⟨hf.trans hp.1, ?_⟩
          rw [hparent _ hx hxe _ (h.holds _ hx).first_mem]
          exact hp.2

end Shows

/-! ### Inserting a block -/

/-- What is left in the container of the blocks in it when one of them is collected. A single node
stays where it is. -/
def collected (e : Block) (live : List Block) : List Block :=
  match e with
  | .single _ => live
  | .group _ => live.filter (· ≠ e)

theorem filter_collected (e : Block) (live : List Block) :
    (collected e live).filter (· ≠ e) = live.filter (· ≠ e) := by
  cases e with
  | single n => rfl
  | group g =>
    rw [collected, List.filter_filter]
    simp only [Bool.and_self]

theorem collected_append (e : Block) (front back : List Block) :
    collected e (front ++ back) = collected e front ++ collected e back := by
  cases e with
  | single n => rfl
  | group g => exact List.filter_append ..

theorem collected_cons_of_ne (hne : x ≠ e) : collected e (x :: live) = x :: collected e live := by
  cases e with
  | single n => rfl
  | group g => simp [collected, hne]

theorem mem_collected (hne : x ≠ e) : x ∈ collected e live ↔ x ∈ live := by
  cases e with
  | single n => rfl
  | group g =>
    rw [collected, List.mem_filter]
    simp [hne]

/-- A block can be inserted by the node that stands for it. -/
def Ready (S : Stage) (d : Document) (e : Block) : Prop :=
  ∀ g, e = .group g → d.Whole g (S.span e)

namespace Shows

/-- Collecting a block leaves all others where they are. -/
theorem shows_collect (h : S.Shows d cut live) (he : e ∈ S.blocks) :
    S.Shows (d.access e .insert).2 cut (collected e live) ∧ S.Ready (d.access e .insert).2 e := by
  cases e with
  | single n => exact ⟨h, fun g hg => by cases hg⟩
  | group g =>
    have hg := gathered_collect h.forest (h.holds _ he) (h.gatherable he)
    have hne : S.container ≠ g.fragment := fun hc =>
      S.outside _ he (hc ▸ List.mem_singleton_self _)
    have hnotin : .group g ∉ collected (.group g) live := by simp [collected]
    have hm : Moved d (d.collect g) (S.span (.group g)) := by
      refine hg.moved fun n hn => ?_
      exact h.mem_span_of_mem_fragment he (List.mem_singleton_self _) hn
    refine ⟨?_, ?_⟩
    · refine h.moved he hm (fun _ _ => .rfl) (fun x hx => mem_collected hx) ?_ ?_ ?_ ?_
      · intro n hn q hq
        change (d.collect g).parent? n = some q at hq
        rw [hg.parent?, if_pos hn] at hq
        exact .inr (Option.some.inj hq ▸ List.mem_singleton_self _)
      · show (d.collect g).children S.container = _
        rw [hg.children_of_ne _ hne, h.children, List.filter_append, List.filter_append,
          h.filter_ahead he, h.filter_behind he, S.filter_flatMap he h.live_mem]
        rfl
      · exact fun hlive => absurd hlive hnotin
      · intro _
        refine ⟨fun n hn hc => ?_, fun g' hg' => ?_⟩
        · have hp := hg.parent? n
          rw [if_pos hn] at hp
          exact hne (Option.some.inj (hc.symm.trans hp))
        · cases hg'
          exact .inl hg.children_self
    · intro g' hg'
      cases hg'
      exact hg.children_self

/-- Putting the nodes of a block that has been collected between those of two others. -/
theorem inserted (h : S.Shows d cut (front ++ back)) (he : e ∈ S.blocks)
    (hr : S.Ready d e) :
    Inserted d (d.insertBefore S.container e.handle
        (back.flatMap (S.part cut) ++ S.behind).head?) S.container (S.span e)
      (S.ahead ++ front.flatMap (S.part cut)) (back.flatMap (S.part cut) ++ S.behind) := by
  have hholds := h.holds e he
  have hins : Insertable d S.container (S.span e) (S.ahead ++ front.flatMap (S.part cut))
      (back.flatMap (S.part cut) ++ S.behind) := by
    refine ⟨h.forest, ?_, fun n hn => ?_, ?_⟩
    · rw [h.children, List.flatMap_append]
      simp
    · exact ⟨h.has, hholds.has n hn, h.inner, hholds.solid n hn, h.clear he hn⟩
    · cases e with
      | single n =>
        rw [show S.span (.single n) = [n] from hholds.spans]
        exact List.nodup_singleton n
      | group g => exact hholds.spans.2.1
  cases e with
  | single n =>
    rw [show S.span (.single n) = [n] from hholds.spans] at hins ⊢
    exact inserted_insertBefore hins
  | group g =>
    have hw : d.children g.fragment = S.span (.group g) := hr g rfl
    have hfragment := hholds.fragment g.fragment (List.mem_singleton_self _)
    rw [← hw] at hins ⊢
    refine inserted_insertBefore_fragment hins hfragment fun n hn hhead => ?_
    -- the nodes in the fragment are not in the container
    have hc : n ∈ d.children S.container := by
      rw [hins.children]
      exact List.mem_append_right _ (List.mem_of_mem_head? hhead)
    have heq := (h.forest.parent_of_mem hc).symm.trans (h.forest.parent_of_mem hn)
    exact S.outside _ he (Option.some.inj heq ▸ List.mem_singleton_self _)

/-- Putting a block that has been collected between two others. -/
theorem shows_place (h : S.Shows d cut (front ++ back)) (he : e ∈ S.blocks)
    (hr : S.Ready d e) :
    S.Shows (d.insertBefore S.container e.handle
        (back.flatMap (S.part cut) ++ S.behind).head?) (cut.filter (· ≠ e))
      (front.filter (· ≠ e) ++ e :: back.filter (· ≠ e)) := by
  have hins := h.inserted he hr
  have hparts : ∀ l : List Block, (l.filter (· ≠ e)).flatMap (S.part (cut.filter (· ≠ e)))
      = (l.filter (· ≠ e)).flatMap (S.part cut) := by
    intro l
    refine List.flatMap_congr fun x hx => part_congr ?_
    simp [(by simpa using (List.mem_filter.1 hx).2 : x ≠ e)]
  refine h.moved he (hins.moved ?_) ?_ ?_ ?_ ?_ ?_ ?_
  · rw [h.children, List.flatMap_append]
    simp
  · intro x hx
    simp [hx]
  · intro x hx
    simp [hx]
  · intro n hn q hq
    rw [hins.parent?, if_pos hn] at hq
    exact .inl (Option.some.inj hq).symm
  · rw [hins.children_self, List.filter_append, List.filter_append, h.filter_ahead he,
      h.filter_behind he,
      S.filter_flatMap he fun x hx => h.live_mem x (List.mem_append_left _ hx),
      S.filter_flatMap he fun x hx => h.live_mem x (List.mem_append_right _ hx),
      List.flatMap_append, List.flatMap_cons, hparts, hparts, part_of_not_mem (by simp)]
    simp
  · intro _ f hf
    have hne : f ≠ S.container := fun hc => S.outside e he (hc ▸ hf)
    rw [hins.children_of_ne f hne, remainder_of_not_mem (by simp), List.filter_eq_nil_iff]
    intro n hn
    simpa using h.mem_span_of_mem_fragment he hf hn
  · exact fun hnot => absurd (by simp) hnot

/-- Inserting a block between two others, of which the second one is not the block itself. -/
theorem shows_insert (h : S.Shows d cut (front ++ back)) (he : e ∈ S.blocks)
    (hhead : back.head? ≠ some e) :
    S.Shows ((d.access e .insert).2.insertBefore S.container e.handle
        (back.flatMap (S.part cut) ++ S.behind).head?) (cut.filter (· ≠ e))
      (front.filter (· ≠ e) ++ e :: back.filter (· ≠ e)) := by
  have hc := h.shows_collect he
  have hhead' : ((collected e back).flatMap (S.part cut) ++ S.behind).head?
      = (back.flatMap (S.part cut) ++ S.behind).head? := by
    cases back with
    | nil => cases e <;> rfl
    | cons x rest =>
      have hne : x ≠ e := fun hxe => hhead (hxe ▸ rfl)
      have hpart := h.part_ne_nil (h.live_mem x (by simp))
      rw [collected_cons_of_ne hne]
      cases hp : S.part cut x with
      | nil => exact absurd hp hpart
      | cons n l => simp [hp]
  have hlive := hc.1
  rw [collected_append] at hlive
  have hplace := hlive.shows_place he hc.2
  rw [hhead', filter_collected, filter_collected] at hplace
  exact hplace

end Shows

/-! ### Removing a block -/

namespace Shows

/-- The first node of a block, by which it is taken away. -/
theorem part_eq_of_cut (h : S.Shows d cut live) (he : e ∈ S.blocks) (hcut : e ∈ cut) :
    S.part cut e = [e.first] := by
  rw [part_of_mem hcut, (h.holds e he).eq_first_cons]
  rfl

theorem moved_collectTail (h : S.Shows d cut live) (he : e ∈ live) (hcut : e ∉ cut) :
    Moved d (d.access e .remove).2 (S.span e) := by
  cases e with
  | single n => exact .refl h.forest _
  | group g =>
    have hst := h.standing he hcut
    have hins := inserted_collectTail h.forest (h.holds _ (h.live_mem _ he)) hst
    exact (hins.moved (by rw [hst.1]; rfl)).mono fun n hn => List.mem_of_mem_tail hn

/-- A block is cut down to its first node. -/
theorem shows_collectTail (h : S.Shows d cut live) (he : e ∈ live)
    (hcut : e ∉ cut) : S.Shows (d.access e .remove).2 (e :: cut) live := by
  have hmem := h.live_mem e he
  cases e with
  | single n =>
    have hspan : S.span (.single n) = [n] := (h.holds _ hmem).spans
    refine ⟨h.origin_forest, h.since, h.live_mem, ?_, ?_, h.stowed⟩
    · have hparts : live.flatMap (S.part (.single n :: cut)) = live.flatMap (S.part cut) := by
        refine List.flatMap_congr fun x _ => ?_
        by_cases hx : x = .single n
        · rw [hx, part_of_mem (by simp), part_of_not_mem hcut, hspan]
          rfl
        · exact part_congr (by simp [hx])
      rw [hparts]
      exact h.children
    · intro x hx f hf
      have hne : x ≠ .single n := by
        rintro rfl
        cases hf
      have hiff : x ∈ .single n :: cut ↔ x ∈ cut := by simp [hne]
      rw [remainder_congr hiff]
      exact h.kept x hx f hf
  | group g =>
    have hholds := h.holds _ hmem
    have hst := h.standing he hcut
    have hins := inserted_collectTail h.forest hholds hst
    have hne : S.container ≠ g.fragment := hst.2.1
    have hsub : ∀ n ∈ (S.span (.group g)).tail, n ∈ S.span (.group g) :=
      fun n hn => List.mem_of_mem_tail hn
    have hm := h.moved_collectTail he hcut
    have hfirst : g.first ∉ (S.span (.group g)).tail := by
      have hnd := hholds.spans.2.1
      rw [hholds.eq_cons, List.nodup_cons] at hnd
      exact hnd.1
    refine h.moved hmem hm (fun x hx => by simp [hx]) (fun _ _ => .rfl) ?_ ?_ ?_ ?_
    · intro n hn q hq
      change (d.collectTail g).parent? n = some q at hq
      rw [hins.parent?] at hq
      split at hq
      · exact .inr (Option.some.inj hq ▸ List.mem_singleton_self _)
      · obtain ⟨-, -, l₁, l₂, hsplit⟩ := hst
        have hp := h.forest.parent_of_mem (p := S.container) (n := n) (by rw [hsplit]; simp [hn])
        exact .inl (Option.some.inj (hq.symm.trans hp))
    · show (d.collectTail g).children S.container = _
      have hnd := h.nodup
      obtain ⟨l₁, l₂, rfl⟩ := List.append_of_mem he
      have hl₁ : .group g ∉ l₁ := fun hg => List.disjoint_of_nodup_append hnd hg (by simp)
      have hl₂ : .group g ∉ l₂ := (List.nodup_cons.1 (List.nodup_append.1 hnd).2.1).1
      have hnot : ∀ l : List NodeId, (∀ n ∈ S.span (.group g), n ∉ l) →
          l.filter (· ∉ (S.span (.group g)).tail) = l :=
        fun l hl => filter_notMem_of_disjoint fun n hn => hl n (hsub n hn)
      have hparts : ∀ l : List Block, (∀ x ∈ l, x ∈ S.blocks) → .group g ∉ l →
          (l.flatMap (S.part cut)).filter (· ∉ (S.span (.group g)).tail)
            = l.flatMap (S.part (.group g :: cut)) := by
        intro l hl hg
        have hcongr : l.flatMap (S.part (.group g :: cut)) = l.flatMap (S.part cut) := by
          refine List.flatMap_congr fun x hx => part_congr ?_
          have hxg : x ≠ .group g := fun he' => hg (he' ▸ hx)
          simp [hxg]
        rw [hcongr, hnot]
        intro n hn hn'
        obtain ⟨x, hx, hnx⟩ := List.mem_flatMap.1 hn'
        have hxg : x ≠ .group g := fun he' => hg (he' ▸ hx)
        exact S.span_disjoint hmem (hl x hx) hxg hn (mem_span_of_mem_part hnx)
      have hself : (S.part cut (.group g)).filter (· ∉ (S.span (.group g)).tail) = [g.first] := by
        rw [part_of_not_mem hcut]
        conv_lhs => rw [hholds.eq_cons, List.tail_cons]
        rw [List.filter_cons_of_pos (by simpa using hfirst), List.filter_eq_nil_iff.2 (by simp)]
      rw [hins.children_of_ne _ hne, h.children, List.filter_append, List.filter_append,
        hnot _ fun n hn => (h.around hmem hn).1, hnot _ fun n hn => (h.around hmem hn).2,
        List.flatMap_append, List.flatMap_cons, List.filter_append, List.filter_append,
        hparts l₁ (fun x hx => h.live_mem x (by simp [hx])) hl₁,
        hparts l₂ (fun x hx => h.live_mem x (by simp [hx])) hl₂, hself, List.flatMap_append,
        List.flatMap_cons, part_of_mem (by simp), hholds.eq_cons]
      rfl
    · intro _ f hf
      rw [List.mem_singleton.1 hf, remainder_of_mem (by simp)]
      show (d.collectTail g).children g.fragment = _
      rw [hins.children_self]
      simp
    · exact fun hnot => absurd he hnot

/-- What is left of a block that has been cut stands in the container. -/
theorem parent_of_cut (h : S.Shows d cut live) (he : e ∈ live) (hcut : e ∈ cut) :
    d.parent? e.first = some S.container := by
  refine h.forest.parent_of_mem ?_
  rw [h.children]
  simp only [List.mem_append, List.mem_flatMap]
  refine .inl (.inr ⟨e, he, ?_⟩)
  rw [h.part_eq_of_cut (h.live_mem e he) hcut]
  exact List.mem_singleton_self _

/-- What is left of a block that has been cut is taken away. -/
theorem shows_detach (h : S.Shows d cut (front ++ e :: back)) (hcut : e ∈ cut) :
    S.Shows (d.detach e.first) cut (front ++ back) := by
  have he : e ∈ S.blocks := h.live_mem e (by simp)
  have hholds := h.holds e he
  have hpart := h.part_eq_of_cut he hcut
  generalize hn : e.first = n at hpart ⊢
  have hself : n ∈ S.part cut e := by
    rw [hpart]
    exact List.mem_singleton_self n
  have hspan : n ∈ S.span e := mem_span_of_mem_part hself
  have hm : Moved d (d.detach n) (S.span e) :=
    (moved_detach h.forest n).mono (by simpa using hspan)
  have hnd := h.nodup
  have hnot : e ∉ front ++ back := by
    intro hmem
    rcases List.mem_append.1 hmem with hf | hb
    · exact List.disjoint_of_nodup_append hnd hf (by simp)
    · exact (List.nodup_cons.1 (List.nodup_append.1 hnd).2.1).1 hb
  have hchildren : (d.detach n).children S.container
      = S.ahead ++ (front ++ back).flatMap (S.part cut) ++ S.behind := by
    have hold := h.children
    rw [List.flatMap_append, List.flatMap_cons, hpart, List.singleton_append,
      ← List.append_assoc, List.append_assoc, List.cons_append] at hold
    have hndc := h.forest.nodup S.container
    rw [hold] at hndc
    rw [children_detach h.forest, hold, filter_ne_append_cons hndc, List.flatMap_append]
    simp
  -- the other nodes of the block are in its fragment
  have hrest : ∀ m ∈ S.span e, m ≠ n → ∃ f ∈ e.fragments, d.parent? m = some f := by
    intro m hmem hne
    rw [← S.part_append_remainder cut e, hpart, List.singleton_append, List.mem_cons] at hmem
    have hmem := hmem.resolve_left hne
    cases e with
    | single k =>
      rw [remainder_of_mem hcut, show S.span (.single k) = [k] from hholds.spans] at hmem
      cases hmem
    | group g =>
      have hkept := h.kept (.group g) (by simp) g.fragment (List.mem_singleton_self _)
      exact ⟨g.fragment, List.mem_singleton_self _, h.forest.parent_of_mem (hkept ▸ hmem)⟩
  refine h.moved he hm (fun _ _ => .rfl) (fun x hx => by simp [hx]) ?_ hchildren ?_ ?_
  · intro m hmem q hq
    rw [parent?_detach] at hq
    split at hq
    · cases hq
    · rename_i hne
      obtain ⟨f, hf, hp⟩ := hrest m hmem hne
      exact .inr (Option.some.inj (hp.symm.trans hq) ▸ hf)
  · exact fun hlive => absurd hlive hnot
  · intro _
    refine ⟨fun m hmem hp => ?_, fun g hg => .inr ⟨?_, ?_⟩⟩
    · rw [parent?_detach] at hp
      split at hp
      · cases hp
      · rename_i hne
        obtain ⟨f, hf, hp'⟩ := hrest m hmem hne
        exact S.outside e he (Option.some.inj (hp'.symm.trans hp) ▸ hf)
    · subst hg
      have hkept := h.kept (.group g) (by simp) g.fragment (List.mem_singleton_self _)
      rw [remainder_of_mem hcut] at hkept
      have hfirst : n ∉ (S.span (.group g)).tail := by
        have hnodup := hholds.spans.2.1
        rw [hholds.eq_cons, List.nodup_cons] at hnodup
        rw [← hn]
        exact hnodup.1
      rw [children_detach h.forest, hkept, filter_ne_of_notMem hfirst]
    · subst hg
      rw [← hn, parent?_detach]
      show (if g.first = g.first then none else _) ≠ _
      rw [if_pos rfl]
      exact fun hc => by cases hc

/-! ### The nodes next to a block -/

/-- What follows a block that has been cut. -/
theorem nextSibling?_of_cut (h : S.Shows d cut (front ++ e :: back)) (hcut : e ∈ cut) :
    d.nextSibling? e.first
      = (back.flatMap (S.part cut) ++ S.behind).head? := by
  have hchildren : d.children S.container = (S.ahead ++ front.flatMap (S.part cut)) ++
      e.first :: (back.flatMap (S.part cut) ++ S.behind) := by
    rw [h.children, List.flatMap_append, List.flatMap_cons,
      h.part_eq_of_cut (h.live_mem e (by simp)) hcut]
    simp
  exact nextSibling?_eq h.forest hchildren

/-- What follows a block that is not cut. -/
theorem nextSibling?_last (h : S.Shows d cut (front ++ e :: back)) (hcut : e ∉ cut) :
    d.nextSibling? e.last = (back.flatMap (S.part cut) ++ S.behind).head? := by
  have hholds := h.holds e (h.live_mem e (by simp))
  obtain ⟨init, hinit⟩ := List.getLast?_eq_some_iff.1 hholds.getLast?_eq
  have hchildren : d.children S.container = (S.ahead ++ front.flatMap (S.part cut) ++ init) ++
      e.last :: (back.flatMap (S.part cut) ++ S.behind) := by
    rw [h.children, List.flatMap_append, List.flatMap_cons, part_of_not_mem hcut, hinit]
    simp
  exact nextSibling?_eq h.forest hchildren

/-- What a block that is not cut begins with. -/
theorem head?_first (h : S.Shows d cut live) (he : e ∈ S.blocks) (back : List Block) :
    ((e :: back).flatMap (S.part cut) ++ S.behind).head? = some e.first := by
  have hholds := h.holds e he
  have hhead : ∃ rest, S.part cut e = e.first :: rest := by
    by_cases hcut : e ∈ cut
    · exact ⟨[], h.part_eq_of_cut he hcut⟩
    · exact ⟨_, (part_of_not_mem hcut).trans hholds.eq_first_cons⟩
  obtain ⟨rest, hrest⟩ := hhead
  rw [List.flatMap_cons, hrest]
  rfl

end Shows

end Stage

end LiveMarkup
