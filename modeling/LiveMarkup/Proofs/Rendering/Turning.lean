import LiveMarkup.Proofs.Rendering.Carrying
/-!
# A child binding that turns to something else

A child binding that has shown one thing is brought up to date with another one. What has stood in front of its
placeholder is exchanged for what is to stand there, of which some may have been made beside it: blocks for
blocks, blocks for the text of the binding, or the text for blocks (`Document.Carries.turn`).
-/

namespace LiveMarkup

open Exhibit

/-- A piece that is like the text of a binding is that text. -/
theorem Plant.pieces_eq_of_text {pieces : List (Block × List Plant)} {n : NodeId} {data : String}
    (h : List.Forall₂ AlikePiece pieces [(.single n, [.text n data])]) :
    pieces = [(.single n, [.text n data])] := by
  cases h with
  | @cons y _ _ _ hy hnil =>
    cases hnil
    obtain ⟨block, ps⟩ := y
    obtain ⟨rfl, halike⟩ := hy
    cases ps with
    | nil => exact False.elim halike
    | cons p ps =>
      cases ps with
      | cons => exact False.elim halike.2
      | nil =>
        have hp := halike.1
        cases p <;> rw [Alike] at hp <;> try exact False.elim hp
        obtain ⟨rfl, rfl⟩ := hp
        rfl

namespace Exhibit

variable {K : Exhibit → Exhibit} {kept : List NodeId} {i : Instance} {roots plants plants' ps : List Plant}
  {A B : List (Binding × Spot)} {l r ys made : List Exhibit} {z x : Exhibit} {b b' : ChildBinding} {n : NodeId}

/-- What is shown in a child hole is a run of nodes in front of the placeholder. -/
theorem Framing.exists_run (old : List (Block × List Plant)) (hK : Framing kept K)
    (hx : (K (seated i roots (A ++ (.child b, .child n plants) :: B) (l ++ z :: r))).Proper)
    (hnd : (K (seated i roots (A ++ (.child b, .child n plants) :: B) (l ++ z :: r))).nodes.Nodup)
    (hlength : A.length = l.length)
    (halike : Plant.AlikeAll ps (K (seated i roots (A ++ (.child b, .child n plants) :: B) (l ++ z :: r))).plants)
    (hold : plants ++ z.plants = old.flatMap Prod.snd) :
    ∃ front pieces q behind, Plant.Row ps (front ++ pieces.flatMap Prod.snd ++ q :: behind) ∧ q.id = n ∧
      List.Forall₂ Plant.AlikePiece pieces old := by
  obtain ⟨_, _, _, _, H⟩ := (hK.proper hx).exists_hole hlength
  obtain ⟨front, q, behind, hrow, rfl⟩ := H.exists_site (i := i) hlength (parts_seated (hK.nodup hnd))
  obtain ⟨front', behind', hrow⟩ := hK.row hx hnd hrow
  obtain ⟨row, hrow, hrows⟩ := halike.exists_row hrow
  rw [hold, show front' ++ (front ++ old.flatMap Prod.snd ++ q :: behind) ++ behind'
    = front' ++ front ++ old.flatMap Prod.snd ++ q :: (behind ++ behind') by simp] at hrows
  obtain ⟨row', last, rfl, hrows, hlast⟩ := hrows.exists_append
  obtain ⟨front'', mid, rfl, -, hmid⟩ := hrows.exists_append
  obtain ⟨pieces, hpieces, rfl⟩ := hmid.exists_pieces
  cases last with
  | nil => exact False.elim hlast
  | cons q' behind'' => exact ⟨front'', pieces, q', behind'', hrow, hlast.1.id_eq, hpieces⟩

variable (i roots A B l r) in
/-- The entries before a hole turns to something else and after it are the same but for that of the hole. -/
theorem Framing.entries_turn (hK : Framing kept K) (h : Becomes [z] ys [x]) (made : List Exhibit)
    (e : Binding × Spot) :
    ∃ rest, ((K (seated i roots (A ++ e :: B) (l ++ z :: r))).entries ++ entriesAll (ys ++ made)).Perm
        (e :: rest) ∧
      ∀ e', ((K (seated i roots (A ++ e' :: B) (l ++ x :: r))).entries ++ entriesAll made).Perm (e' :: rest) := by
  classical
  obtain ⟨outer, houter⟩ := hK.entries
  have hentries := h.entries
  rw [entriesAll_singleton, entriesAll_singleton] at hentries
  refine ⟨A ++ (B ++ (entriesAll l ++ (x.entries ++ (entriesAll r ++ (outer ++ entriesAll made))))),
    ((houter _).append_right _).trans ?_, fun e' => ((houter _).append_right _).trans ?_⟩ <;>
  · rw [entries_seated, entriesAll_append, entriesAll]
    rw [List.perm_iff_count] at hentries ⊢
    intro e''
    have hcount := hentries e''
    simp only [List.count_append, List.count_cons, entriesAll_append] at hcount ⊢
    omega

variable (i roots plants plants' A B l r n) in
/-- No node comes in when a hole turns to something else. -/
theorem Framing.nodes_turn (hK : Framing kept K) (h : Becomes [z] ys [x]) (htext : b'.text = b.text) :
    ∃ lost, ((K (seated i roots (A ++ (.child b, .child n plants) :: B) (l ++ z :: r))).nodes ++ nodesAll ys).Perm
      ((K (seated i roots (A ++ (.child b', .child n plants') :: B) (l ++ x :: r))).nodes ++ lost) := by
  obtain ⟨outer, houter⟩ := hK.nodes
  obtain ⟨lost, hnodes⟩ := h.nodes
  rw [nodesAll_singleton, nodesAll_singleton] at hnodes
  refine ⟨lost, ((houter _).append_right _).trans (.trans ?_ ((houter _).append_right _).symm)⟩
  have htexts : Binding.texts (.child b') = Binding.texts (.child b) := congrArg (fun k => [k]) htext
  have hcontent : ∀ ps, Spot.content (.child n ps) = [] := fun _ => rfl
  have hcons : ∀ y, nodesAll (y :: r) = y.nodes ++ nodesAll r := fun _ => rfl
  rw [nodes_seated, nodes_seated, nodesAll_append, nodesAll_append, hcons, hcons]
  simp only [List.map_append, List.map_cons, List.flatMap_append, List.flatMap_cons, htexts, hcontent]
  rw [List.perm_iff_count] at hnodes ⊢
  intro m
  have hcount := hnodes m
  simp only [List.count_append] at hcount ⊢
  omega

end Exhibit

namespace Document

variable {d d' : Document} {c n : NodeId} {kept : List NodeId} {K : Exhibit → Exhibit} {i : Instance}
  {roots plants plants' ps ps' : List Plant} {A B rest : List (Binding × Spot)} {l r ys made : List Exhibit}
  {z x : Exhibit} {b b' : ChildBinding} {p p' : Plan} {f : Plant → List Plant} {v w : Value}

namespace Carries

/-- A hole has turned to something else, and the document has been changed accordingly. -/
theorem lift (g : d.Carries c (ys ++ made) (K (seated i roots (A ++ (.child b, .child n plants) :: B)
      (l ++ z :: r)))) (hK : Framing kept K) (h : Becomes [z] ys [x]) (htext : b'.text = b.text)
    (hr : Recasts f (seated i roots (A ++ (.child b, .child n plants) :: B) (l ++ z :: r))
      (seated i roots (A ++ (.child b', .child n plants') :: B) (l ++ x :: r)))
    (hready : d'.Ready (some c) ps' (piecesAll made) ((.child b', .child n plants') :: rest))
    (hps : Plant.AlikeAll ps' (Plant.graftAll f
      (K (seated i roots (A ++ (.child b, .child n plants) :: B) (l ++ z :: r))).plants))
    (hrest : ((K (seated i roots (A ++ (.child b', .child n plants') :: B) (l ++ x :: r))).entries
      ++ entriesAll made).Perm ((.child b', .child n plants') :: rest)) (hgrown : d.Grows d')
    (hv : d'.Vacated (placed ((.child b', .child n plants') :: rest))) :
    d'.Carries c made (K (seated i roots (A ++ (.child b', .child n plants') :: B) (l ++ x :: r))) := by
  have hrecast := hK.recasts g.exposes.proper g.exposes.nodup_nodes hr
  obtain ⟨lost, hnodes⟩ := hK.nodes_turn i roots plants plants' A B l r n h htext
  have hv := hv.perm (placed_perm hrest.symm)
  have hpieces : ∀ y ∈ piecesAll made, y ∈ piecesAll (ys ++ made) := fun y hy => by
    rw [piecesAll_append]
    exact List.mem_append_right _ hy
  have hall : (c :: ((K (seated i roots (A ++ (.child b', .child n plants') :: B) (l ++ x :: r))).nodes
      ++ nodesAll made ++ lost)).Nodup ∧
      ∀ m ∈ (K (seated i roots (A ++ (.child b', .child n plants') :: B) (l ++ x :: r))).nodes ++ nodesAll made,
        d.Has m := by
    have hperm := hnodes.append_right (nodesAll made)
    rw [List.append_assoc, ← nodesAll_append, List.append_assoc] at hperm
    have hperm := hperm.trans (List.perm_append_comm.append_left _)
    rw [← List.append_assoc] at hperm
    exact ⟨(hperm.cons c).nodup_iff.1 g.exposes.nodup, fun m hm =>
      g.exposes.has m (hperm.mem_iff.2 (List.mem_append_left _ hm))⟩
  exact {
    exposes := {
      ready := ⟨ps', hready.perm (.refl _) hrest.symm, hrecast.plants ▸ hps⟩
      proper := hrecast.proper
      nodup := hall.1.sublist ((List.sublist_append_left ..).cons_cons _)
      has := fun m hm => hgrown.has (hall.2 m hm)
      aside := fun y hy m hw hm => by
        rcases List.mem_append.1 (hnodes.mem_iff.2 (List.mem_append_left _ hm)) with hm | hm
        · exact g.exposes.aside y (hpieces y hy) m hw hm
        · obtain ⟨z', hz', hm⟩ := mem_nodesAll.1 hm
          rw [piecesAll_eq, List.mem_flatMap] at hy
          obtain ⟨y', hy', hy⟩ := hy
          exact ((List.pairwise_append.1 g.clear).2.2 z' hz' y' hy').2 y hy m hw hm
      emptied := hv.empty
      free := fun e _ => List.forall_mem_nil _
      has_fixed := List.forall_mem_nil _ }
    nodup := hv.nodup
    spans := fun y hy => g.spans y (hpieces y hy)
    clear := (List.pairwise_append.1 g.clear).2.1 }

/-- What is shown in a hole is exchanged. -/
theorem recasts (g : d.Carries c (ys ++ made) (K (seated i roots (A ++ (.child b, .child n plants) :: B)
      (l ++ z :: r)))) (hK : Framing kept K) (hlength : A.length = l.length)
    (hmodest : Modest (.child b', .child n plants')) (hx : x.Proper) :
    Recasts (Plant.exchange n ((plants ++ z.plants).map Plant.id) (plants' ++ x.plants))
      (seated i roots (A ++ (.child b, .child n plants) :: B) (l ++ z :: r))
      (seated i roots (A ++ (.child b', .child n plants') :: B) (l ++ x :: r)) :=
  recasts_hole (hK.proper g.exposes.proper) (hK.nodup g.exposes.nodup_nodes) hlength hmodest hx

/-- A child binding and what it has in place, among all that is carried. -/
theorem exists_turn (g : d.Carries c (ys ++ made) (K (seated i roots (A ++ (.child b, .child n plants) :: B)
      (l ++ z :: r)))) (hK : Framing kept K) (h : Becomes [z] ys [x]) :
    ∃ ps rest, d.Ready (some c) ps (piecesAll ys ++ piecesAll made) ((.child b, .child n plants) :: rest) ∧
      Plant.AlikeAll ps (K (seated i roots (A ++ (.child b, .child n plants) :: B) (l ++ z :: r))).plants ∧
      (∀ e', ((K (seated i roots (A ++ e' :: B) (l ++ x :: r))).entries ++ entriesAll made).Perm (e' :: rest)) ∧
      d.Vacated (placed ((.child b, .child n plants) :: rest)) := by
  obtain ⟨ps, hready, halike⟩ := g.exposes.ready
  obtain ⟨rest, hrest, hrest'⟩ := hK.entries_turn i roots A B l r h made (.child b, .child n plants)
  exact ⟨ps, rest, hready.perm (.of_eq (piecesAll_append ..)) hrest, halike, hrest',
    g.vacated.perm (placed_perm hrest)⟩

end Carries

/-- Pieces that are in place stand in line. -/
theorem lineup_of_row (own : List (Block × List Plant)) {old others pieces : List (Block × List Plant)}
    {front behind : List Plant} {q : Plant} {e : Binding × Spot}
    (hready : d.Ready (some c) ps (own ++ others) (e :: rest))
    (hrow : Plant.Row ps (front ++ pieces.flatMap Prod.snd ++ q :: behind))
    (hpieces : List.Forall₂ Plant.AlikePiece pieces old)
    (hspans : ∀ y ∈ old ++ (own ++ others), y.1.Spans (y.2.map Plant.id)) (hentries : b.entries = old.map Prod.fst)
    (hv : d.Vacated (placed ((.child b, .child n plants) :: rest))) :
    d.Lineup c ps (own ++ others) (e :: rest) front pieces q behind ∧ b.entries = pieces.map Prod.fst ∧
      d.Vacated ((pieces.flatMap fun y => y.1.fragments) ++ placed rest) := by
  have hold := (Plant.alikeAll_pieces hpieces).1
  have hplaced : (Binding.child b).placed = pieces.flatMap fun y => y.1.fragments := by
    rw [Binding.placed, hentries, ← hold, List.flatMap_map]
  rw [placed_cons, hplaced] at hv
  refine ⟨⟨hready, hrow, fun y hy => ?_, fun y hy f hf => hv.empty f (List.mem_append_left _
    (List.mem_flatMap.2 ⟨y, hy, hf⟩)), (List.nodup_append.1 hv.nodup).1⟩, hentries.trans hold.symm, hv⟩
  rcases List.mem_append.1 hy with hy | hy
  · obtain ⟨y', hy', hblock, halike⟩ := Plant.exists_alike hpieces hy
    rw [hblock, halike.map_id]
    exact hspans y' (List.mem_append_left _ hy')
  · exact hspans y (List.mem_append_right _ hy)

/-- What comes of the nodes when pieces are exchanged for others that are alike. -/
theorem alike_exchanged {old new new' pieces : List (Block × List Plant)} {qs : List Plant}
    (halike : Plant.AlikeAll ps qs) (hpieces : List.Forall₂ Plant.AlikePiece pieces old)
    (hnew : List.Forall₂ Plant.AlikePiece new new') :
    Plant.AlikeAll (Plant.graftAll (Plant.exchange n (pieces.flatMap fun y => y.2.map Plant.id)
        (new.flatMap Prod.snd)) ps)
      (Plant.graftAll (Plant.exchange n ((old.flatMap Prod.snd).map Plant.id) (new'.flatMap Prod.snd)) qs) := by
  have hids : (pieces.flatMap fun y => y.2.map Plant.id) = (old.flatMap Prod.snd).map Plant.id := by
    rw [← (Plant.alikeAll_pieces hpieces).2.map_id, List.map_flatMap]
  rw [hids]
  exact halike.graft (Plant.respects_exchange n _ (Plant.alikeAll_pieces hnew).2)

namespace Carries

/-- Blocks are shown in the place of others. -/
theorem turn_blocks (g : d.Carries c (ys ++ made) (K (seated i roots (A ++ (.child b, .child n []) :: B)
      (l ++ z :: r)))) (hK : Framing kept K) (hlength : A.length = l.length) (h : Becomes [z] ys [x])
    (hx : x.Proper) (hentries : b.entries = z.blocks) :
    ∃ d', b.showBlocks d x.blocks = ({ b with entries := x.blocks }, d') ∧ d'.Carries c made
      (K (seated i roots (A ++ (.child { b with entries := x.blocks }, .child n []) :: B) (l ++ x :: r))) := by
  obtain ⟨ps, rest, hready, halike, hrest, hv⟩ := g.exists_turn hK h
  obtain ⟨front, pieces, q, behind, hrow, rfl, hpieces⟩ := hK.exists_run z.pieces g.exposes.proper
    g.exposes.nodup_nodes hlength halike (by rw [List.nil_append, plants_eq_pieces.1])
  have hspans := h.spans
  rw [piecesAll_singleton] at hspans
  obtain ⟨hlineup, hentries', hv'⟩ := lineup_of_row _ hready hrow hpieces (fun y hy => by
    rw [← List.append_assoc, List.mem_append] at hy
    exact hy.elim (hspans y) fun hy => g.spans y (by rw [piecesAll_append]; exact List.mem_append_right _ hy))
    hentries hv
  obtain ⟨gone, -, hperm⟩ := h.pieces
  rw [piecesAll_singleton, piecesAll_singleton] at hperm
  obtain ⟨new, rest', hnew, hperm'⟩ := Plant.exists_alike_part
    (List.rel_append hpieces (List.forall₂_same.2 fun y _ => ⟨rfl, .refl y.2⟩)) hperm
  have hold := (Plant.alikeAll_pieces hpieces).1
  have hnew' : new.map Prod.fst = x.blocks := (Plant.alikeAll_pieces hnew).1
  have hplaceholder := (hready.supports _ (List.mem_cons_self ..)).1
  obtain ⟨d', hshown, hgrown, hready', hkeep, -⟩ := hlineup.exchange_beside hplaceholder hentries' hperm' (by
    have horder := h.order
    rw [piecesAll_singleton, piecesAll_singleton] at horder
    rw [hold, hnew']
    refine horder ?_
    have hnd := hlineup.nodup_blocks
    rw [← List.append_assoc, List.map_append, List.map_append, hold] at hnd
    rw [List.map_append]
    exact (List.nodup_append.1 hnd).1)
  rw [hnew'] at hshown
  refine ⟨d', hshown, g.lift hK h rfl (g.recasts hK hlength (fun q hq => by cases hq) hx)
    (hready'.remember rfl rfl) ?_ (hrest _) hgrown ?_⟩
  · rw [List.nil_append, List.nil_append, plants_eq_pieces.1 z, plants_eq_pieces.1 x]
    exact alike_exchanged halike hpieces hnew
  · have hv' := hkeep _ hv'
    rw [placed_cons, Binding.placed, ← hnew', List.flatMap_map]
    exact hv'

/-- Blocks are shown in the place of the text of a binding. -/
theorem turn_from_text {data : String} (g : d.Carries c (ys ++ made) (K (seated i roots
      (A ++ (.child b, .child n [.text b.text data]) :: B) (l ++ z :: r)))) (hK : Framing kept K)
    (hlength : A.length = l.length) (h : Becomes [z] ys [x]) (hx : x.Proper)
    (hentries : b.entries = [.single b.text]) (hz : z.pieces = []) :
    ∃ d', { b with shown := none }.showBlocks d x.blocks
        = ({ b with shown := none, entries := x.blocks }, d') ∧ d'.Carries c made (K (seated i roots
      (A ++ (.child { b with shown := none, entries := x.blocks }, .child n []) :: B) (l ++ x :: r))) := by
  obtain ⟨ps, rest, hready, halike, hrest, hv⟩ := g.exists_turn hK h
  obtain ⟨front, pieces, q, behind, hrow, rfl, hpieces⟩ := hK.exists_run [(.single b.text, [.text b.text data])]
    g.exposes.proper g.exposes.nodup_nodes hlength halike (by rw [plants_eq_pieces.1, hz]; rfl)
  have hspans := h.spans
  rw [piecesAll_singleton, hz, List.nil_append] at hspans
  obtain ⟨hlineup, hentries', hv'⟩ := lineup_of_row _ hready hrow hpieces (fun y hy => by
    rcases List.mem_cons.1 hy with rfl | hy
    · exact rfl
    · refine (List.mem_append.1 (List.mem_append.1 hy |>.resolve_left (by simp))).elim (hspans y) fun hy => ?_
      exact g.spans y (by rw [piecesAll_append]; exact List.mem_append_right _ hy)) hentries hv
  -- the text is in the row as it is, and it is all that has to go
  obtain rfl := Plant.pieces_eq_of_text hpieces
  have hperm : (piecesAll ys).Perm x.pieces := by
    obtain ⟨gone, hgone, hperm⟩ := h.pieces
    rw [piecesAll_singleton, piecesAll_singleton, hz, List.nil_append] at hperm
    rw [piecesAll_singleton, hz] at hgone
    rwa [List.sublist_nil.1 hgone, List.append_nil] at hperm
  have hout : Block.single b.text ∉ x.blocks := by
    have hnd := hlineup.nodup_blocks
    rw [List.singleton_append, List.map_cons, List.nodup_cons, List.map_append, List.mem_append, not_or] at hnd
    exact fun hmem => hnd.1.1 ((hperm.map Prod.fst).mem_iff.2 hmem)
  have hplaceholder : ({ b with shown := none } : ChildBinding).placeholder = q.id :=
    (hready.supports _ (List.mem_cons_self ..)).1
  have hperm' : ([(Block.single b.text, [Plant.text b.text data])] ++ piecesAll ys).Perm
      (x.pieces ++ [(Block.single b.text, [Plant.text b.text data])]) :=
    List.perm_append_comm.trans (hperm.append_right _)
  obtain ⟨d', hshown, hgrown, hready', hkeep, hparent⟩ := hlineup.exchange_beside hplaceholder hentries' hperm'
    (common_comm_of_disjoint fun e he he' => by
      obtain rfl := List.mem_singleton.1 he
      exact hout he')
  have hmem : b.text ∈ Plant.idsAll ps := hlineup.mem_ids_of_piece (List.mem_singleton_self _) (by simp [Plant.ids])
  refine ⟨d', hshown, g.lift hK h rfl (g.recasts hK hlength (fun q hq => by cases hq) hx)
    (hready'.conceal rfl rfl (fun hc => ?_) (hparent (fun y hy => ?_) _ (List.mem_singleton_self _) _
      (List.mem_singleton_self _)) fun y hy hw => ?_) ?_ (hrest _) hgrown ?_⟩
  · exact (List.nodup_cons.1 (hready.bears.nodup hready.sound.forest)).1 (hc ▸ hmem)
  · rw [List.mem_singleton.1 hy]
    rfl
  · exact hready.aside y (List.mem_append_right _ hy) _ hw (.inr hmem)
  · rw [List.nil_append, plants_eq_pieces.1 z, hz, plants_eq_pieces.1 x]
    exact alike_exchanged halike (.cons ⟨rfl, .refl _⟩ .nil) (List.forall₂_same.2 fun y _ => ⟨rfl, .refl y.2⟩)
  · have hv' := hkeep _ hv'
    rw [placed_cons, Binding.placed, Exhibit.blocks, List.flatMap_map]
    exact hv'

/-- The text of a binding is shown in the place of blocks. -/
theorem turn_to_text (g : d.Carries c (ys ++ made) (K (seated i roots (A ++ (.child b, .child n []) :: B)
      (l ++ z :: r)))) (hK : Framing kept K) (hlength : A.length = l.length) (h : Becomes [z] ys [x])
    (hx : x.Proper) (hentries : b.entries = z.blocks) (hpieces : x.pieces = []) (w : Value) :
    ∃ d', { b with shown := some w }.showBlocks (d.setData b.text w.written) [.single b.text]
        = ({ b with shown := some w, entries := [.single b.text] }, d') ∧ d'.Carries c made (K (seated i roots
      (A ++ (.child { b with shown := some w, entries := [.single b.text] }, .child n [.text b.text w.written]) :: B)
      (l ++ x :: r))) := by
  obtain ⟨ps, rest, hready, halike, hrest, hv⟩ := g.exists_turn hK h
  obtain ⟨front, pieces, q, behind, hrow, rfl, hpieces'⟩ := hK.exists_run z.pieces g.exposes.proper
    g.exposes.nodup_nodes hlength halike (by rw [List.nil_append, plants_eq_pieces.1])
  have hmade : piecesAll ys = [] := by
    obtain ⟨gone, hgone, hperm⟩ := h.pieces
    have hlength := hperm.length_eq
    have hle := hgone.length_le
    rw [piecesAll_singleton x, hpieces, List.nil_append, List.length_append] at hlength
    exact List.length_eq_zero_iff.1 (by omega)
  have hspans := h.spans
  rw [piecesAll_singleton] at hspans
  rw [hmade, List.nil_append] at hready
  have hrevealed := hready.reveal { b with shown := some w, entries := [.single b.text] } rfl rfl w.written
  have hgentle := gentle_setData d b.text w.written
  obtain ⟨hlineup, hentries', hv'⟩ := lineup_of_row [(.single b.text, [.text b.text w.written])] hrevealed
    hrow hpieces' (fun y hy => by
      rcases List.mem_append.1 hy with hy | hy
      · exact hspans y (List.mem_append_left _ hy)
      · rcases List.mem_cons.1 hy with rfl | hy
        · exact rfl
        · exact g.spans y (by rw [piecesAll_append]; exact List.mem_append_right _ hy)) hentries (hv.gentle hgentle)
  have hout : Block.single b.text ∉ pieces.map Prod.fst := by
    have hnd := hlineup.nodup_blocks
    rw [List.map_append, List.nodup_append] at hnd
    exact fun hmem => hnd.2.2 _ hmem _ (List.mem_cons_self ..) rfl
  have hplaceholder : ({ b with shown := some w } : ChildBinding).placeholder = q.id :=
    (hready.supports _ (List.mem_cons_self ..)).1
  obtain ⟨d', hshown, hgrown, hready', hkeep, -⟩ := hlineup.exchange_beside hplaceholder hentries'
    List.perm_append_comm (common_comm_of_disjoint fun e he he' => by
      obtain rfl := List.mem_singleton.1 he'
      exact hout he)
  refine ⟨d', hshown, g.lift hK h rfl (g.recasts hK hlength (fun q hq => ?_) hx) hready' ?_ (hrest _)
    ((evolves_setData d (List.mem_singleton_self b.text) w.written : d.Evolves _ _ []).grows.trans hgrown) ?_⟩
  · exact ⟨_, List.mem_singleton.1 hq⟩
  · rw [List.nil_append, plants_eq_pieces.1 z, plants_eq_pieces.1 x, hpieces]
    exact alike_exchanged halike hpieces' (.cons ⟨rfl, .refl _⟩ .nil)
  · exact hkeep _ hv'

/-- The text of a binding stays, and what is nested comes to nothing before and after. -/
theorem turn_beside_text {data : String} (g : d.Carries c (ys ++ made) (K (seated i roots
      (A ++ (.child b, .child n [.text b.text data]) :: B) (l ++ z :: r)))) (hK : Framing kept K)
    (hlength : A.length = l.length) (h : Becomes [z] ys [x]) (hx : x.Proper) (hz : z.pieces = [])
    (hpieces : x.pieces = []) :
    d.Carries c made (K (seated i roots (A ++ (.child b, .child n [.text b.text data]) :: B) (l ++ x :: r))) := by
  obtain ⟨ps, rest, hready, halike, hrest, hv⟩ := g.exists_turn hK h
  have hmodest : Modest (.child b, .child n [.text b.text data]) := fun q hq => ⟨_, List.mem_singleton.1 hq⟩
  have hrecast := g.recasts hK hlength hmodest hx
  have hself : ∀ qs : List Plant, Plant.graftAll (fun q => [q]) qs = qs := fun qs =>
    Plant.graftAll_eq_self fun _ _ => rfl
  have hplants : (seated i roots (A ++ (.child b, .child n [.text b.text data]) :: B) (l ++ z :: r)).plants
      = (seated i roots (A ++ (.child b, .child n [.text b.text data]) :: B) (l ++ x :: r)).plants := by
    have hcons : ∀ y, plantsAll (y :: r) = y.plants :: plantsAll r := fun _ => rfl
    rw [plants_seated, plants_seated, added, added, plantsAll_append, plantsAll_append, hcons, hcons,
      plants_eq_pieces.1 z, plants_eq_pieces.1 x, hz, hpieces]
  refine g.lift hK h rfl (f := fun q => [q]) ⟨hrecast.nonempty, fun _ _ => rfl, (hself _).trans hplants,
    hrecast.proper⟩ (hready.drop (List.sublist_append_right ..)) ?_ (hrest _) (.refl d) hv
  rwa [hself]

/-- The text of a binding says something else. -/
theorem say {data : String} (g : d.Carries c made (K (seated i roots
      (A ++ (.child b, .child n [.text b.text data]) :: B) (l ++ x :: r)))) (hK : Framing kept K)
    (hlength : A.length = l.length) (w : Value) :
    (d.setData b.text w.written).Carries c made (K (seated i roots
      (A ++ (.child { b with shown := some w }, .child n [.text b.text w.written]) :: B) (l ++ x :: r))) := by
  have ha := hK.amends g.exposes.proper g.exposes.nodup_nodes (amends_say { b with shown := some w }
    (hK.proper g.exposes.proper) (hK.nodup g.exposes.nodup_nodes) hlength rfl w.written)
  have hexposes := (g.exposes.say ha rfl rfl).1
  obtain ⟨C, D, hold, hnew⟩ := ha.entries
  refine .intro hexposes (.refl _) ⟨g.nodup, hexposes.emptied⟩ (.of_eq ?_) g.spans g.clear
  rw [hold, hnew]
  simp only [placed_append, placed_cons]
  rfl

/-- A child binding is brought up to date. -/
theorem turn (g : d.Carries c (ys ++ made) (K (seated i roots (A ++ (.child b, .child n plants) :: B)
      (l ++ z :: r)))) (hK : Framing kept K) (hlength : A.length = l.length) (h : Becomes [z] ys [x])
    (hx : x.Shows p') (hfits' : p'.Fits) (hshown : Shown (.child b, .child n plants) z.blocks p)
    (hbare : p.primitive?.isSome = true → z.pieces = []) :
    ∃ b' plants' d', b.update d x.result = (b', d') ∧ d'.Carries c made
        (K (seated i roots (A ++ (.child b', .child n plants') :: B) (l ++ x :: r))) ∧
      Shown (.child b', .child n plants') x.blocks p' ∧ b'.text = b.text := by
  have hproper := proper_of_shows.1 x p' hx hfits'
  have hupdate := ChildBinding.update_result b d hx hfits'
  obtain ⟨ps, rest, hready, -, -⟩ := g.exists_turn hK h
  obtain ⟨rfl, -, hkind, -⟩ := hready.supports _ (List.mem_cons_self ..)
  obtain ⟨hmemory, hplants⟩ := hshown
  have hpieces : p'.primitive?.isSome = true → x.pieces = [] := fun hsome => by
    obtain ⟨w, hw⟩ := Option.isSome_iff_exists.1 hsome
    exact pieces_of_primitive hx hfits' hw
  cases hv : p.primitive? with
  | none =>
    rw [hv] at hmemory hplants
    obtain ⟨hentries, rfl⟩ := hplants
    have hnone : b.shown = none := by
      cases hs : b.shown with
      | none => rfl
      | some u => rw [hs] at hmemory; cases hmemory
    cases hw : p'.primitive? with
    | none =>
      have hsame : { b with shown := none } = b := by rw [← hnone]
      rw [hw] at hupdate
      dsimp only at hupdate
      rw [hsame] at hupdate
      obtain ⟨d', hshow, hcarries⟩ := g.turn_blocks hK hlength h hproper hentries
      refine ⟨_, [], d', hupdate.trans hshow, hcarries, ?_, rfl⟩
      rw [Shown, hw]
      exact ⟨hmemory, rfl, rfl⟩
    | some w =>
      rw [hw] at hupdate
      dsimp only at hupdate
      rw [ChildBinding.showPrimitive, hnone, Option.any_none, if_neg Bool.false_ne_true,
        ChildBinding.setText_of_kind hkind] at hupdate
      obtain ⟨d', hshow, hcarries⟩ := g.turn_to_text hK hlength h hproper hentries
        (hpieces (by rw [hw]; rfl)) w
      refine ⟨_, _, d', hupdate.trans hshow, hcarries, ?_, rfl⟩
      rw [Shown, hw]
      exact ⟨.some (.inl rfl), rfl, rfl⟩
  | some v =>
    rw [hv] at hmemory hplants
    obtain ⟨hentries, rfl⟩ := hplants
    have hz := hbare (by rw [hv]; rfl)
    cases hw : p'.primitive? with
    | none =>
      rw [hw] at hupdate
      dsimp only at hupdate
      obtain ⟨d', hshow, hcarries⟩ := g.turn_from_text hK hlength h hproper hentries hz
      refine ⟨_, [], d', hupdate.trans hshow, hcarries, ?_, rfl⟩
      rw [Shown, hw]
      exact ⟨.none, rfl, rfl⟩
    | some w =>
      have g' := g.turn_beside_text hK hlength h hproper hz (hpieces (by rw [hw]; rfl))
      obtain ⟨u, hu, hpasses⟩ : ∃ u, b.shown = some u ∧ u.Passes v := by
        cases hs : b.shown with
        | none => rw [hs] at hmemory; cases hmemory
        | some u =>
          rw [hs] at hmemory
          cases hmemory with
          | some h => exact ⟨u, rfl, h⟩
      rw [hw] at hupdate
      dsimp only at hupdate
      rw [ChildBinding.showPrimitive, hu, Option.any_some] at hupdate
      by_cases hsame : u.isSame w = true
      · rw [if_pos hsame] at hupdate
        refine ⟨b, _, d, hupdate, g', ?_, rfl⟩
        rw [Shown, hw, hu]
        refine ⟨.some (.inr hsame), hentries, ?_⟩
        rw [← hpasses.written, Value.written_eq_of_isSame hsame]
      · rw [if_neg hsame, ChildBinding.setText_of_kind hkind] at hupdate
        obtain ⟨-, q, hq⟩ := g'.exposes.exists_parent hK.toAround hlength
        have hself : { b with shown := some w }.showBlocks (d.setData b.text w.written) [.single b.text]
            = ({ b with shown := some w }, d.setData b.text w.written) := by
          rw [← hentries]
          exact ChildBinding.showBlocks_self (b := { b with shown := some w }) (parent?_setData.trans hq)
        refine ⟨_, _, _, hupdate.trans hself, g'.say hK hlength w, ?_, rfl⟩
        rw [Shown, hw]
        exact ⟨.some (.inl rfl), hentries, rfl⟩

end Carries

end Document

end LiveMarkup
