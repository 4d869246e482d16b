import Mathlib.Data.List.Pairwise
import LiveMarkup.Proofs.Document.Exactness
import LiveMarkup.Proofs.Rendering.FirstRender
import LiveMarkup.Proofs.Rendering.Seating
/-!
# Taking instances out of a hole

An instance that is shown in a child hole is moved as the block that its topmost nodes are. What its own
holes have put in front of its first node is not between the nodes of the block, and so it is left behind. If
the content of the template begins with a node that is no placeholder (`Compiled.Headed`), nothing stands
there: the block spans all that the instance comes to (`Exhibit.spans_use`). So such instances are taken out
of the hole and moved in it with all of their content (`ChildBinding.update_takes_all`).
-/

namespace LiveMarkup

open Exhibit

/-- There is a first node in the content, and no child content goes in front of it. -/
structure Compiled.Headed (c : Compiled) : Prop where
  nonempty : c.content ≠ []
  head : ∀ h ∈ c.holes, h.kind = .child → h.path ≠ [0]

/-- A use of a template whose content begins with a node of its own, or a list of such uses. -/
inductive Plan.Headed : Plan → Prop where
  | use {space : Markup.Namespace} {template : Template} {compiled : Compiled} {holes : List Plan}
      (h : compiled.Headed) : Headed (.use space template compiled holes)
  | list {items : List Plan} (h : ∀ p ∈ items, ∃ space template compiled holes,
      p = .use space template compiled holes ∧ compiled.Headed) : Headed (.list items)

theorem Plan.Headed.primitive? {p : Plan} (h : p.Headed) : p.primitive? = none := by
  cases h with
  | use => rfl
  | @list items h =>
    cases items with
    | nil => rfl
    | cons p ps =>
      obtain ⟨space, template, compiled, holes, rfl, -⟩ := h p (List.mem_cons_self ..)
      rfl

/-! ### What a block spans -/

/-- No node is twice at the top of a piece. -/
theorem Document.Loose.nodup {d : Document} {b : Block} {qs : List Plant} (hf : d.Forest)
    (h : d.Loose b qs) : (qs.map Plant.id).Nodup := by
  cases b with
  | single n =>
    rw [(h.single n rfl).1]
    exact List.nodup_singleton n
  | group g =>
    rw [← h.bears.row g.fragment rfl]
    exact hf.nodup _

namespace Exhibit

variable {d : Document} {i : Instance} {roots : List Plant} {spots : List Spot} {xs : List Exhibit}
  {x : Exhibit} {p : Plan} {ps : List Plan} {space : Markup.Namespace} {template : Template}
  {compiled : Compiled}

/-- The block of an instance spans all that the instance comes to. -/
theorem spans_use (hx : (use i roots spots xs).Shows (.use space template compiled ps))
    (hheaded : compiled.Headed) (hnd : ((use i roots spots xs).plants.map Plant.id).Nodup) :
    i.block.Spans ((use i roots spots xs).plants.map Plant.id) := by
  obtain ⟨-, -, htops, htrees, hndroots, hlength, hshown, hall⟩ := hx
  rw [plants] at hnd ⊢
  cases roots with
  | nil =>
    rw [Plant.trees_nil] at htrees
    exact absurd htrees.symm hheaded.nonempty
  | cons q roots =>
    -- what is in front of the first node comes from a hole with its path
    have hbefore : (Spot.trimmings spots (plantsAll xs)).before q.id = [] := by
      refine List.eq_nil_iff_forall_not_mem.2 fun r hr => ?_
      have hseats := hshown.seats hall
      have hspots : (i.bindings.zip spots).map Prod.snd = spots :=
        List.map_snd_zip (Nat.le_of_eq hlength.symm)
      rw [← hspots] at hr
      obtain ⟨h, hh, e, -, -, -, hkind, ⟨q', hfollow, hplace, -⟩, hid, -⟩ := hseats.mem_before hr
      refine hheaded.head h hh hkind (Plant.eq_of_follow hndroots hfollow ?_ (hplace.symm.trans hid))
      rfl
    have hfirst : (Plant.graftAll (Spot.trimmings spots (plantsAll xs)).put (q :: roots)).map Plant.id
        = q.id :: (Plant.graftAll (Spot.trimmings spots (plantsAll xs)).put roots).map Plant.id := by
      rw [Plant.graftAll_cons, List.map_append, Trimming.map_id_graft_put, hbefore]
      rfl
    cases hb : i.block with
    | single n =>
      rw [hb, List.map_cons] at htops
      obtain ⟨rfl, hnil⟩ := List.cons.inj htops
      obtain rfl := List.map_eq_nil_iff.1 hnil.symm
      exact hfirst
    | group g =>
      have hmembers : g.members = (q :: roots).map Plant.id := by rw [← htops, hb]; rfl
      refine ⟨by rw [hmembers]; exact List.cons_ne_nil _ _, hnd, ?_, ?_, ?_⟩
      · rw [hmembers]
        exact Trimming.sublist_map_id_graftAll_put
      · rw [hfirst, Group.first, hmembers]
        rfl
      · rw [Trimming.getLast?_map_id_graftAll_put, Group.last, hmembers, List.getLastD_eq_getLast?,
          List.map_cons, List.getLast?_cons]
        rfl

theorem spans_pieces (hx : x.Shows p) (hp : p.Headed) (hf : d.Forest)
    (hloose : ∀ y ∈ x.pieces, d.Loose y.1 y.2) :
    ∀ y ∈ x.pieces, y.1.Spans (y.2.map Plant.id) := by
  have huse : ∀ {x : Exhibit} {space template compiled ps}, x.Shows (.use space template compiled ps) →
      compiled.Headed → (∀ y ∈ x.pieces, d.Loose y.1 y.2) →
      ∀ y ∈ x.pieces, y.1.Spans (y.2.map Plant.id) := by
    intro x space template compiled ps hx hheaded hloose
    cases x with
    | leaf | list => exact False.elim hx
    | use i roots spots xs =>
      rw [pieces, List.forall_mem_singleton] at hloose ⊢
      exact spans_use hx hheaded (hloose.nodup hf)
  cases hp with
  | use hheaded => exact huse hx hheaded hloose
  | @list items hheaded =>
    cases x with
    | leaf | use => exact False.elim hx
    | list xs =>
      replace hx : ShowsAll xs items := hx
      rw [pieces] at hloose ⊢
      induction xs generalizing items with
      | nil => exact fun y hy => by cases hy
      | cons x xs ih =>
        cases items with
        | nil => exact False.elim hx
        | cons p items =>
          obtain ⟨⟨space, template, compiled, holes, rfl, hcompiled⟩, hitems⟩ :=
            List.forall_mem_cons.1 hheaded
          rw [piecesAll, List.forall_mem_append] at hloose ⊢
          exact ⟨huse hx.1 hcompiled hloose.1, ih hitems hloose.2 hx.2⟩

end Exhibit

/-! ### Blocks in front of a placeholder -/

namespace Document

variable {d : Document} {n p : NodeId} {x : Block × List Plant} {pieces : List (Block × List Plant)}
  {front behind : List NodeId}

/-- A loose piece is put in front of a node that is in none of the pieces. -/
theorem Ready.insertOutside (g : d.Ready none [] (x :: pieces) [])
    (hrow : d.children p = front ++ n :: behind)
    (hout : ∀ y ∈ x :: pieces, ¬ Within y.1.root? y.2 p) :
    (d.insertBlock p x.1 (some n)).Ready none [] pieces [] ∧
      Relinked d (d.insertBlock p x.1 (some n)) ∧
      (d.insertBlock p x.1 (some n)).children p = front ++ x.2.map Plant.id ++ n :: behind ∧
      (∀ f ∈ x.1.fragments, (d.insertBlock p x.1 (some n)).children f = []) ∧
      ∀ f, f ≠ p → d.children f = [] → (d.insertBlock p x.1 (some n)).children f = [] := by
  have hmem : x ∈ x :: pieces := List.mem_cons_self ..
  have hx := g.loose x hmem
  have hf := g.sound.forest
  have hp : d.parent? n = some p := hf.parent_of_mem (by rw [hrow]; simp)
  have hins := hx.inserted hf (has_of_mem_children (hf.mem_of_parent hp)) (hf.inner hp) hrow (hout x hmem)
  rw [List.head?_cons] at hins
  generalize d.insertBlock p x.1 (some n) = d' at *
  -- none of the nodes has been among the children
  have hapart : ∀ m ∈ x.2.map Plant.id, m ∉ front ++ n :: behind := by
    intro m hm hmp
    rw [← hrow] at hmp
    exact hout x hmem (.inl ((hx.parent? hf hm).symm.trans (hf.parent_of_mem hmp)))
  have hpieces := List.pairwise_cons.1 g.apart
  refine ⟨⟨⟨hins.forest, g.sound.owned.relinked hins.relinked⟩,
    ⟨fun q hq => by (cases hq), fun q hq => by (cases hq)⟩, fun q hq => by (cases hq),
    fun _ q hq => by (cases hq),
    g.loose_inserted hins fun y hy => hout y (List.mem_cons_of_mem x hy), hpieces.2,
    fun y hy m _ hw => ?_, fun e he => by (cases he), .nil, fun c m hc => by (cases hc)⟩,
    hins.relinked, ?_, fun f hfx => ?_, fun f hne hempty => ?_⟩
  · rcases hw with hw | hw
    · cases hw
    · rw [Plant.idsAll_nil] at hw
      cases hw
  · have hfront : ∀ m ∈ x.2.map Plant.id, m ∉ front := fun m hm hmf =>
      hapart m hm (List.mem_append_left _ hmf)
    have hbehind : ∀ m ∈ x.2.map Plant.id, m ∉ n :: behind := fun m hm hmb =>
      hapart m hm (List.mem_append_right _ hmb)
    rw [hins.children_self, filter_notMem_of_disjoint hfront, filter_notMem_of_disjoint hbehind]
  · obtain ⟨b, qs⟩ := x
    cases b with
    | single m => cases hfx
    | group k =>
      obtain rfl := List.mem_singleton.1 hfx
      have hne : k.fragment ≠ p := fun he => hout _ hmem (.inl (congrArg some he))
      rw [hins.children_of_ne _ hne, hx.bears.row k.fragment rfl, List.filter_eq_nil_iff]
      exact fun m hm => by simpa using hm
  · rw [hins.children_of_ne f hne, hempty, List.filter_nil]

/-- Loose pieces are put in front of a node one after another. -/
theorem Ready.insertEachOutside (g : d.Ready none [] pieces [])
    (hrow : d.children p = front ++ n :: behind) (hout : ∀ y ∈ pieces, ¬ Within y.1.root? y.2 p) :
    ∃ d', (pieces.map Prod.fst).foldl (fun d b => d.insertBlock p b (some n)) d = d' ∧ d'.Forest ∧
      Relinked d d' ∧
      d'.children p = front ++ pieces.flatMap (fun y => y.2.map Plant.id) ++ n :: behind ∧
      (∀ y ∈ pieces, ∀ f ∈ y.1.fragments, d'.children f = []) ∧
      ∀ f, f ≠ p → d.children f = [] → d'.children f = [] := by
  induction pieces generalizing d front with
  | nil =>
    exact ⟨d, rfl, g.sound.forest, .refl d, by rw [hrow]; simp, fun y hy => by (cases hy),
      fun f _ hf => hf⟩
  | cons x pieces ih =>
    obtain ⟨g', hrelinked, hrow', hself, hempty⟩ := g.insertOutside hrow hout
    obtain ⟨hx, hpieces⟩ := List.forall_mem_cons.1 hout
    obtain ⟨d', hd', hforest, hrelinked', hchildren, hfragments, hothers⟩ := ih g' hrow' hpieces
    refine ⟨d', hd', hforest, hrelinked.trans hrelinked', ?_, ?_, fun f hne hf =>
      hothers f hne (hempty f hne hf)⟩
    · rw [hchildren, List.flatMap_cons, List.append_assoc front]
    · refine List.forall_mem_cons.2 ⟨fun f hf => hothers f ?_ (hself f hf), hfragments⟩
      rintro rfl
      obtain ⟨b, qs⟩ := x
      cases b with
      | single m => cases hf
      | group k =>
        obtain rfl := List.mem_singleton.1 hf
        exact hx (.inl rfl)

/-- Pieces alone are ready without the bindings that go with them. -/
theorem Ready.onlyPieces {entries : List (Binding × Spot)} (g : d.Ready none [] pieces entries) :
    d.Ready none [] pieces [] where
  sound := g.sound
  bears := g.bears
  rooted := g.rooted
  top := g.top
  loose := g.loose
  apart := g.apart
  aside := g.aside
  supports e he := by cases he
  separate := .nil
  hidden c n hc := by cases hc

theorem Loose.holds {b : Block} {qs : List Plant} (h : d.Loose b qs) (hs : b.Spans (qs.map Plant.id)) :
    d.Holds b (qs.map Plant.id) where
  spans := hs
  has n hn := h.has (.inr (mem_idsAll_of_mem_map hn))
  solid n hn := h.bears.solid (mem_idsAll_of_mem_map hn)
  has_fragment f hf := h.has (.inl (mem_root_iff.1 hf))
  fragment f hf := by
    cases b with
    | single n => cases hf
    | group g =>
      obtain rfl := List.mem_singleton.1 hf
      exact (h.group g rfl).2.1

theorem Holds.within_first {b : Block} {qs : List Plant} (h : d.Holds b (qs.map Plant.id)) :
    Within b.root? qs b.first := by
  refine .inr (mem_idsAll_of_mem_map ?_)
  rw [h.eq_first_cons]
  exact List.mem_cons_self ..

/-- Pieces apart from each other have different blocks. -/
theorem lookup_of_apart (hholds : ∀ y ∈ pieces, d.Holds y.1 (y.2.map Plant.id))
    (hapart : pieces.Pairwise fun x y => ∀ n, Within x.1.root? x.2 n → ¬ Within y.1.root? y.2 n)
    {y : Block × List Plant} (hy : y ∈ pieces) : pieces.lookup y.1 = some y.2 := by
  obtain ⟨l, r, rfl⟩ := List.append_of_mem hy
  refine List.lookup_eq_some_iff.2 ⟨l, r, rfl, fun z hz => bne_iff_ne.2 fun he => ?_⟩
  exact (List.pairwise_append.1 hapart).2.2 z hz y (List.mem_cons_self ..) _
    (hholds z (List.mem_append_left _ hz)).within_first (he ▸ (hholds y hy).within_first)

/-- Pieces that stand side by side are what a stage shows, while others are where they have been made. -/
theorem exists_stage_beside {others : List (Block × List Plant)} (hf : d.Forest) (hp : d.Has p)
    (hinner : d.leaf? p = none) (hholds : ∀ y ∈ pieces ++ others, d.Holds y.1 (y.2.map Plant.id))
    (hapart : (pieces ++ others).Pairwise fun x y =>
      ∀ n, Within x.1.root? x.2 n → ¬ Within y.1.root? y.2 n)
    (hout : ∀ y ∈ pieces ++ others, ¬ Within y.1.root? y.2 p)
    (hrow : d.children p = front ++ pieces.flatMap (fun y => y.2.map Plant.id) ++ behind)
    (hempty : ∀ y ∈ pieces, ∀ f ∈ y.1.fragments, d.children f = [])
    (hloose : ∀ y ∈ others, d.Loose y.1 y.2) :
    ∃ S : Stage, S.origin = d ∧ S.container = p ∧ S.blocks = (pieces ++ others).map Prod.fst ∧
      (∀ y ∈ pieces ++ others, S.span y.1 = y.2.map Plant.id) ∧ S.ahead = front ∧ S.behind = behind ∧
      S.Shows S.origin [] (pieces.map Prod.fst) := by
  have hwithin : ∀ y : Block × List Plant, ∀ m ∈ y.1.fragments ++ y.2.map Plant.id,
      Within y.1.root? y.2 m := fun y m hm =>
    (List.mem_append.1 hm).imp mem_root_iff.1 mem_idsAll_of_mem_map
  have hsymm : Std.Symm fun x y : Block × List Plant =>
      ∀ n, Within x.1.root? x.2 n → ¬ Within y.1.root? y.2 n := ⟨fun _ _ h m hm hm' => h m hm' hm⟩
  have hdisjoint : ∀ y ∈ pieces ++ others, ∀ z ∈ pieces ++ others, z.1 ≠ y.1 →
      ∀ m, Within y.1.root? y.2 m → ¬ Within z.1.root? z.2 m := fun y hy z hz hne =>
    hapart.forall hy hz fun he => hne (congrArg Prod.fst he.symm)
  have hlookup : ∀ y ∈ pieces ++ others,
      (((pieces ++ others).lookup y.1).getD []).map Plant.id = y.2.map Plant.id := by
    intro y hy
    rw [lookup_of_apart hholds hapart hy]
    rfl
  have hspan : ∀ y ∈ pieces, ∀ m ∈ y.2.map Plant.id, d.parent? m = some p := by
    intro y hy m hm
    refine hf.parent_of_mem ?_
    rw [hrow]
    exact List.mem_append_left _ (List.mem_append_right _ (List.mem_flatMap.2 ⟨y, hy, hm⟩))
  have hclear : ∀ y ∈ pieces ++ others, ∀ m ∈ y.2.map Plant.id, ¬ d.Above p m := by
    intro y hy m hm ha
    rcases List.mem_append.1 hy with hy' | hy'
    · exact hf.acyclic (hspan y hy' m hm) ha
    · exact hout y hy ((hloose y hy').bears.within_of_above hf ha (.inr (mem_idsAll_of_mem_map hm)))
  let S : Stage := {
    origin := d
    container := p
    blocks := (pieces ++ others).map Prod.fst
    span := fun e => (((pieces ++ others).lookup e).getD []).map Plant.id
    ahead := front
    behind := behind
    has_container := hp
    inner_container := hinner
    holds_origin := List.forall_mem_map.2 fun y hy => by
      rw [hlookup y hy]
      exact hholds y hy
    apart := List.forall_mem_map.2 fun y hy => List.forall_mem_map.2 fun z hz hne m hm hm' => by
      rw [hlookup y hy] at hm
      rw [hlookup z hz] at hm'
      exact hdisjoint y hy z hz hne m (hwithin y m hm) (hwithin z m hm')
    outside := List.forall_mem_map.2 fun y hy hm => hout y hy (.inl (mem_root_iff.1 hm))
    clear_origin := List.forall_mem_map.2 fun y hy m hm => by
      rw [hlookup y hy] at hm
      exact hclear y hy m hm }
  refine ⟨S, rfl, rfl, rfl, hlookup, rfl, rfl, hf, .refl hf _, ?_, ?_, ?_, ?_⟩
  · exact List.forall_mem_map.2 fun y hy => List.mem_map_of_mem (List.mem_append_left _ hy)
  · rw [Stage.part_nil, List.flatMap_map, hrow]
    refine congrArg (front ++ · ++ behind) (List.flatMap_congr fun y hy => ?_)
    exact (hlookup y (List.mem_append_left _ hy)).symm
  · refine List.forall_mem_map.2 fun y hy f hfy => ?_
    rw [Stage.remainder_of_not_mem List.not_mem_nil]
    exact hempty y hy f hfy
  · refine List.forall_mem_map.2 fun y hy hnot => ?_
    have hy' : y ∈ others := (List.mem_append.1 hy).resolve_left fun hy => hnot (List.mem_map_of_mem hy)
    show d.Stowed p y.1 ((((pieces ++ others).lookup y.1).getD []).map Plant.id)
    rw [hlookup y hy]
    refine ⟨fun m hm hparent => hout y hy (.inl ?_), fun g hg => .inl ?_⟩
    · rw [← (hloose y hy').parent? hf hm, hparent]
    · exact (hloose y hy').bears.row g.fragment (by rw [hg]; rfl)

/-- Pieces that stand side by side are what a stage shows. -/
theorem exists_stage (hf : d.Forest) (hp : d.Has p) (hinner : d.leaf? p = none)
    (hholds : ∀ y ∈ pieces, d.Holds y.1 (y.2.map Plant.id))
    (hapart : pieces.Pairwise fun x y => ∀ n, Within x.1.root? x.2 n → ¬ Within y.1.root? y.2 n)
    (hout : ∀ y ∈ pieces, ¬ Within y.1.root? y.2 p)
    (hrow : d.children p = front ++ pieces.flatMap (fun y => y.2.map Plant.id) ++ behind)
    (hempty : ∀ y ∈ pieces, ∀ f ∈ y.1.fragments, d.children f = []) :
    ∃ S : Stage, S.origin = d ∧ S.container = p ∧ S.blocks = pieces.map Prod.fst ∧
      (∀ y ∈ pieces, S.span y.1 = y.2.map Plant.id) ∧ S.ahead = front ∧ S.behind = behind ∧
      S.Shows S.origin [] (pieces.map Prod.fst) := by
  have h := exists_stage_beside hf hp hinner (by rwa [List.append_nil]) (by rwa [List.append_nil])
    (by rwa [List.append_nil]) hrow hempty (List.forall_mem_nil _)
  rwa [List.append_nil] at h

/-- New pieces, each of which its block spans, come to stand side by side in front of a node that was there
before. -/
theorem Presents.exists_stage {d₀ : Document} {nodes : List NodeId} {entries : List (Binding × Spot)}
    (h : Presents d₀ d nodes pieces entries) (hspans : ∀ y ∈ pieces, y.1.Spans (y.2.map Plant.id))
    (hhas : d₀.Has p) (hrow : d.children p = front ++ n :: behind) :
    ∃ S : Stage, S.origin = (pieces.map Prod.fst).foldl (fun d b => d.insertBlock p b (some n)) d ∧
      S.container = p ∧ S.blocks = pieces.map Prod.fst ∧
      (∀ y ∈ pieces, S.span y.1 = y.2.map Plant.id) ∧ S.ahead = front ∧ S.behind = n :: behind ∧
      S.Shows S.origin [] (pieces.map Prod.fst) := by
  have hforest := h.ready.sound.forest
  have hparent : d.parent? n = some p := hforest.parent_of_mem (by rw [hrow]; simp)
  have hout : ∀ y ∈ pieces, ¬ Within y.1.root? y.2 p := fun y hy hw => h.fresh.nodes y hy p hw hhas
  obtain ⟨d', hfold, hforest', hrelinked, hrow', hempty, -⟩ := h.ready.onlyPieces.insertEachOutside hrow hout
  have hholds : ∀ y ∈ pieces, d'.Holds y.1 (y.2.map Plant.id) := fun y hy =>
    ((h.ready.loose y hy).holds (hspans y hy)).relinked hrelinked
  have hinner : d'.leaf? p = none := (hrelinked.leaf? p).trans (hforest.inner hparent)
  rw [hfold]
  exact Document.exists_stage hforest' (hrelinked.has.2 (h.keeps.has hhas)) hinner hholds h.ready.apart hout
    hrow' hempty

end Document

namespace ChildBinding

variable {c : ChildBinding} {q : NodeId} {p : Plan} {ahead behind : List NodeId}

/-- A list of blocks is shown as these blocks. -/
theorem update_blocks (c : ChildBinding) (d : Document) (blocks : List Block) :
    c.update d (.list (blocks.map .block)) = { c with shown := none }.showBlocks d blocks := by
  have hitems : ∀ blocks : List Block, blocksOfItems d (blocks.map .block) = (blocks, d) := by
    intro blocks
    induction blocks with
    | nil => rfl
    | cons e rest ih => rw [List.map_cons, blocksOfItems, ih]
  cases blocks with
  | nil => rfl
  | cons e rest =>
    show { c with shown := none }.showBlocks (blocksOfItems d ((e :: rest).map .block)).2
      (blocksOfItems d ((e :: rest).map .block)).1 = _
    rw [hitems]

/-- What the entries of a binding are and where they stand is all that counts for what it shows next. -/
theorem children_showBlocks {S : Stage} (hS : S.Shows S.origin [] c.entries)
    (hsite : S.site = c.site S.container) (hbehind : S.behind = c.placeholder :: behind)
    {blocks : List Block} (hnd : blocks.Nodup) (hsub : blocks ⊆ S.blocks) :
    (c.showBlocks S.origin blocks).2.children S.container
      = S.ahead ++ (blocks.filter (· ∉ Pass.leftover c.entries blocks)).flatMap S.span
        ++ c.placeholder :: behind := by
  have hp : S.origin.parent? c.placeholder = some S.container := by
    refine hS.forest.parent_of_mem ?_
    rw [hS.children, hbehind]
    simp
  rw [showBlocks, hp]
  dsimp only
  rw [← hsite, (reconcile_exact_iff hS hnd hsub).2.1, hbehind]

/-- Instances whose content begins with a node of its own are shown in front of the placeholder of a
hole with all that they come to. When nothing is shown there next, nothing of them is left, and when their
blocks are shown in another order, all that they come to moves with them, but for the blocks that the
reconciliation itself leaves out. -/
theorem update_takes_all (hp : p.Fits) (hheaded : p.Headed) {level : Level} (hlevel : level.IsNew)
    (custody : Custody) (hc : c.entries = [])
    (hrow : level.document.children q = ahead ++ c.placeholder :: behind)
    (hkept : level.document.Kept (custody.nodes ++ level.held) q) :
    ∃ (x : Exhibit) (span : Block → List NodeId) (c' : ChildBinding) (d' : Document), x.Shows p ∧
      (∀ y ∈ x.pieces, span y.1 = y.2.map Plant.id) ∧
      c.update (p.realize custody level).level.document (p.realize custody level).result = (c', d') ∧
      d'.children q = ahead ++ x.blocks.flatMap span ++ c.placeholder :: behind ∧
      (c'.update d' .null).2.children q = ahead ++ c.placeholder :: behind ∧
      ∀ blocks : List Block, blocks.Nodup → blocks ⊆ x.blocks →
        (c'.update d' (.list (blocks.map .block))).2.children q = ahead
          ++ (blocks.filter (· ∉ Pass.leftover x.blocks blocks)).flatMap span
          ++ c.placeholder :: behind := by
  obtain ⟨x, d₁, hx, hrealize, ⟨hpresents⟩⟩ := presented hp custody hlevel
  rw [hrealize]
  have hparent : level.document.parent? c.placeholder = some q :=
    hlevel.sound.forest.parent_of_mem (by rw [hrow]; simp)
  have hhas : level.document.Has q :=
    Document.has_of_mem_children (hlevel.sound.forest.mem_of_parent hparent)
  -- the row is held, so it is still what it was
  have hrow₁ : d₁.children q = ahead ++ c.placeholder :: behind :=
    (hpresents.keeps.same q hhas hkept).children.trans hrow
  have hforest₁ := hpresents.ready.sound.forest
  have hparent₁ : d₁.parent? c.placeholder = some q := hforest₁.parent_of_mem (by rw [hrow₁]; simp)
  obtain ⟨S, horigin, rfl, hblocks, hspan, hahead, hbehind, hS⟩ := hpresents.exists_stage
    (Exhibit.spans_pieces hx hheaded hforest₁ hpresents.ready.loose) hhas hrow₁
  rw [← Exhibit.blocks] at horigin hblocks hS
  have hsite : S.site = ({ c with shown := none, entries := x.blocks } : ChildBinding).site S.container := by
    rw [Stage.site, site, hbehind]
    rfl
  have hshow := fun (blocks : List Block) (hnd : blocks.Nodup) (hsub : blocks ⊆ x.blocks) =>
    hahead ▸ children_showBlocks (c := { c with shown := none, entries := x.blocks }) hS hsite hbehind hnd
      (hblocks ▸ hsub)
  refine ⟨x, S.span, { c with shown := none, entries := x.blocks }, S.origin, hx, hspan, ?_, ?_, ?_, ?_⟩
  · show c.update d₁ x.result = _
    rw [update_result c d₁ hx hp, hheaded.primitive?]
    dsimp only
    rw [showBlocks_of_entries (c := { c with shown := none }) hparent₁ hc, horigin]
  · rw [hS.children, S.part_nil, hahead, hbehind]
  · have hnull := hshow [] .nil (List.nil_subset _)
    rw [List.filter_nil, List.flatMap_nil, List.append_nil] at hnull
    exact hnull
  · intro blocks hnd hsub
    rw [update_blocks]
    exact hshow blocks hnd hsub

/-- An element with a placeholder, in front of which the two items of a list are shown. -/
theorem update_two_items :
    let d := Document.addContent ⟨0⟩ Renderer.oneElement.document [.comment "isµ0"]
    let p := (Value.list (["x", "y"].map Renderer.paragraph.item)).toPlan
    let shown := p.realize ⟨[⟨0⟩], []⟩ ⟨[], [], [], d⟩
    ∃ (x : Exhibit) (span : Block → List NodeId) (c : ChildBinding) (d' : Document), x.Shows p ∧
      update ⟨⟨1⟩, ⟨2⟩, none, []⟩ shown.level.document shown.result = (c, d') ∧
      d'.children ⟨0⟩ = x.blocks.flatMap span ++ [⟨1⟩] ∧ (c.update d' .null).2.children ⟨0⟩ = [⟨1⟩] := by
  intro d p shown
  have hfits : (Value.list (["x", "y"].map Renderer.paragraph.item)).Fits :=
    .list (List.forall_mem_map.2 fun text _ => Renderer.fits_item text)
      (List.forall_mem_map.2 fun text _ => ⟨_, _, _, rfl⟩)
  have hcompiled : (Template.compilation .html ⟨1, ["<b>", "</b>"]⟩).compiled.Headed :=
    ⟨by decide +kernel, by decide +kernel⟩
  have hheaded : p.Headed := by
    show (Value.list (["x", "y"].map Renderer.paragraph.item)).toPlan.Headed
    rw [Value.toPlan, Value.toPlans_eq_map]
    refine .list (List.forall_mem_map.2 (List.forall_mem_map.2 fun text _ => ?_))
    exact ⟨_, _, _, _, by rw [Renderer.paragraph.item, Value.toPlan], hcompiled⟩
  have hsound : d.Sound := (Document.added_addContent Renderer.sound_oneElement.document (by decide)
    (by decide) [.comment "isµ0"]).sound
  have hlevel : Level.IsNew ⟨[], [], [], d⟩ := ⟨rfl, rfl, hsound⟩
  have hrow : d.children ⟨0⟩ = [] ++ ⟨1⟩ :: [] := by decide
  obtain ⟨x, span, c, d', hx, -, hupdate, hchildren, hnull, -⟩ :=
    update_takes_all (c := ⟨⟨1⟩, ⟨2⟩, none, []⟩) hfits.toPlan hheaded hlevel ⟨[⟨0⟩], []⟩ rfl hrow
      (.root (List.mem_singleton_self _))
  exact ⟨x, span, c, d', hx, hupdate, hchildren, hnull⟩

end ChildBinding

end LiveMarkup
