import LiveMarkup.Proofs.Rendering.Exchange
import LiveMarkup.Proofs.Rendering.Turnover
/-!
# A list in the place of another one

When the items of a list have been gone through, the old ones are still in place, or what is left of them, and
those that were made anew stand nowhere. The binding of the hole then puts the blocks of the new list in front
of its placeholder, and after that the list is in place and nothing stands beside it
(`Document.Exposes.relist`).
-/

namespace LiveMarkup

open Exhibit

/-! ### Pieces that are alike -/

namespace Plant

variable {ps qs rs : List Plant} {pieces pieces' : List (Block × List Plant)}

theorem AlikeAll.exists_append (h : AlikeAll ps (qs ++ rs)) :
    ∃ ps₁ ps₂, ps = ps₁ ++ ps₂ ∧ AlikeAll ps₁ qs ∧ AlikeAll ps₂ rs := by
  induction qs generalizing ps with
  | nil => exact ⟨[], ps, rfl, trivial, h⟩
  | cons q qs ih =>
    cases ps with
    | nil => exact False.elim h
    | cons p ps =>
      obtain ⟨ps₁, ps₂, rfl, h₁, h₂⟩ := ih h.2
      exact ⟨p :: ps₁, ps₂, rfl, ⟨h.1, h₁⟩, h₂⟩

/-- Two pieces are for one block and the same but for the order of attributes. -/
def AlikePiece (x y : Block × List Plant) : Prop :=
  x.1 = y.1 ∧ AlikeAll x.2 y.2

theorem AlikeAll.exists_pieces (h : AlikeAll ps (pieces.flatMap Prod.snd)) :
    ∃ pieces', List.Forall₂ AlikePiece pieces' pieces ∧ ps = pieces'.flatMap Prod.snd := by
  induction pieces generalizing ps with
  | nil =>
    cases ps with
    | nil => exact ⟨[], .nil, rfl⟩
    | cons => exact False.elim h
  | cons y rest ih =>
    rw [List.flatMap_cons] at h
    obtain ⟨ps₁, ps₂, rfl, h₁, h₂⟩ := h.exists_append
    obtain ⟨pieces', hall, rfl⟩ := ih h₂
    exact ⟨(y.1, ps₁) :: pieces', .cons ⟨rfl, h₁⟩ hall, rfl⟩

theorem alikeAll_pieces (h : List.Forall₂ AlikePiece pieces' pieces) :
    pieces'.map Prod.fst = pieces.map Prod.fst ∧
      AlikeAll (pieces'.flatMap Prod.snd) (pieces.flatMap Prod.snd) := by
  induction h with
  | nil => exact ⟨rfl, trivial⟩
  | cons hxy _ ih =>
    rw [List.map_cons, List.map_cons, ih.1, hxy.1]
    exact ⟨rfl, hxy.2.append ih.2⟩

theorem exists_alike (h : List.Forall₂ AlikePiece pieces' pieces) {x : Block × List Plant}
    (hx : x ∈ pieces') : ∃ y ∈ pieces, AlikePiece x y := by
  induction h with
  | nil => cases hx
  | cons hxy _ ih =>
    rcases List.mem_cons.1 hx with rfl | hx
    · exact ⟨_, List.mem_cons_self .., hxy⟩
    · obtain ⟨y, hy, halike⟩ := ih hx
      exact ⟨y, List.mem_cons_of_mem _ hy, halike⟩

/-- What belongs to some of the pieces, in another order. -/
theorem exists_alike_part {part rest : List (Block × List Plant)}
    (h : List.Forall₂ AlikePiece pieces' pieces) (hperm : pieces.Perm (part ++ rest)) :
    ∃ part' rest', List.Forall₂ AlikePiece part' part ∧ pieces'.Perm (part' ++ rest') := by
  have hcomp : Relation.Comp (List.Forall₂ AlikePiece) List.Perm pieces' (part ++ rest) :=
    ⟨pieces, h, hperm⟩
  rw [List.forall₂_comp_perm_eq_perm_comp_forall₂] at hcomp
  obtain ⟨pieces'', hperm', hall⟩ := hcomp
  refine ⟨pieces''.take part.length, pieces''.drop part.length, List.forall₂_take_append _ _ _ hall, ?_⟩
  rwa [List.take_append_drop]

end Plant

/-! ### What rows come to -/

namespace Exhibit

theorem piecesAll_eq (xs : List Exhibit) : piecesAll xs = xs.flatMap pieces := by
  induction xs with
  | nil => rfl
  | cons x xs ih => rw [piecesAll, ih, List.flatMap_cons]

theorem entriesAll_eq (xs : List Exhibit) : entriesAll xs = xs.flatMap entries := by
  induction xs with
  | nil => rfl
  | cons x xs ih => rw [entriesAll, ih, List.flatMap_cons]

theorem nodesAll_eq (xs : List Exhibit) : nodesAll xs = xs.flatMap nodes := by
  induction xs with
  | nil => rfl
  | cons x xs ih => rw [nodesAll, ih, List.flatMap_cons]

theorem map_fst_piecesAll (xs : List Exhibit) : (piecesAll xs).map Prod.fst = xs.flatMap blocks := by
  induction xs with
  | nil => rfl
  | cons x xs ih => rw [piecesAll, List.map_append, ih, List.flatMap_cons, blocks]

/-- The blocks of a row span all that it comes to. -/
theorem spans_row {p : Plan} {x : Exhibit} (hp : p.IsRow) (hx : x.Shows p)
    (hnd : (x.plants.map Plant.id).Nodup) : ∀ y ∈ x.pieces, y.1.Spans (y.2.map Plant.id) := by
  cases hp with
  | use _ hheaded =>
    cases x with
    | leaf | list => exact False.elim hx
    | use i roots spots holes =>
      rw [pieces, List.forall_mem_singleton]
      exact spans_use hx hheaded hnd

/-- The fragments of what some exhibits come to. -/
def fragmentsAll (xs : List Exhibit) : List NodeId :=
  (xs.flatMap blocks).flatMap Block.fragments

/-- The fragments of the new rows are those of the old ones, if they have their blocks. -/
theorem fragmentsAll_congr {xs ys : List Exhibit} (h : xs.map blocks = ys.map blocks) :
    fragmentsAll xs = fragmentsAll ys := by
  have hblocks : xs.flatMap blocks = ys.flatMap blocks := by rw [List.flatMap_def, List.flatMap_def, h]
  rw [fragmentsAll, fragmentsAll, hblocks]

end Exhibit

/-- What is in place and what stands nowhere yet consists of pieces that their blocks span, if that is so of
the old rows and of the new ones. -/
theorem Turnover.spans {d : Document} {ps qs : List Plan} {r zs l ys : List Exhibit}
    (h : Turnover d qs r ps zs l ys) (hr : ∀ x ∈ r, ∀ y ∈ x.pieces, y.1.Spans (y.2.map Plant.id))
    (hzs : ∀ z ∈ zs, ∀ y ∈ z.pieces, y.1.Spans (y.2.map Plant.id)) :
    ∀ x ∈ l ++ ys, ∀ y ∈ x.pieces, y.1.Spans (y.2.map Plant.id) := by
  induction h with
  | rest qs r => rwa [List.append_nil]
  | keep _ _ _ ih =>
    rw [List.forall_mem_cons] at hr hzs
    rw [List.cons_append, List.forall_mem_cons]
    exact ⟨hzs.1, ih hr.2 hzs.2⟩
  | change _ hpieces _ _ ih =>
    rw [List.forall_mem_cons] at hr hzs
    have hrest := List.forall_mem_append.1 (ih hr.2 hzs.2)
    rw [List.forall_mem_append, List.forall_mem_cons, List.forall_mem_cons, hpieces]
    exact ⟨⟨hr.1, hrest.1⟩, hzs.1, hrest.2⟩
  | add _ _ ih =>
    rw [List.forall_mem_cons] at hzs
    have hrest := List.forall_mem_append.1 (ih hr hzs.2)
    rw [List.forall_mem_append, List.forall_mem_cons]
    exact ⟨hrest.1, hzs.1, hrest.2⟩

/-- A child binding remembers something else. -/
theorem Document.Ready.remember {d : Document} {root : Option NodeId} {ps plants : List Plant}
    {pieces : List (Block × List Plant)} {entries : List (Binding × Spot)} {n : NodeId} {b b' : ChildBinding}
    (g : d.Ready root ps pieces ((.child b, .child n plants) :: entries))
    (hplaceholder : b'.placeholder = b.placeholder) (htext : b'.text = b.text) :
    d.Ready root ps pieces ((.child b', .child n plants) :: entries) := by
  have hs := g.supports _ (List.mem_cons_self ..)
  refine g.replace ?_ (fun e h => ?_) fun a k he => ?_
  · rw [Document.Supports] at hs ⊢
    rwa [hplaceholder, htext]
  · obtain ⟨b'', s⟩ := e
    cases b'' <;> try exact trivial
    exact fun he => h (htext.symm.trans he)
  · cases he
    exact ⟨b, n, rfl, htext⟩

namespace Document.Exposes

variable {d : Document} {c n : NodeId} {emptied : List NodeId} {i : Instance} {roots : List Plant}
  {b : ChildBinding} {l ys zs rest : List Exhibit}

/-- The items of the list are pieces that stand side by side in front of the placeholder. -/
theorem exists_lineup (g : d.Exposes c [] ⟨ys, emptied⟩ (listing i roots (.child b, .child n []) l))
    (hspans : ∀ x ∈ l ++ ys, ∀ y ∈ x.pieces, y.1.Spans (y.2.map Plant.id))
    (hemptied : fragmentsAll l ⊆ emptied) (hnodup : (fragmentsAll l).Nodup) :
    ∃ (ps front : List Plant) (pieces : List (Block × List Plant)) (q : Plant) (behind : List Plant),
      d.Lineup c ps (piecesAll ys)
        ((listing i roots (.child b, .child n []) l).entries ++ entriesAll ys) front pieces q behind ∧
      Plant.AlikeAll ps (listing i roots (.child b, .child n []) l).plants ∧ q.id = n ∧
      List.Forall₂ Plant.AlikePiece pieces (piecesAll l) := by
  obtain ⟨ps, row, front, q, behind, hready, halike, hrow, halike', rfl⟩ := g.exists_run
  obtain ⟨row', last, rfl, halike', hlast⟩ := halike'.exists_append
  obtain ⟨front', mid, rfl, -, hmid⟩ := halike'.exists_append
  rw [plants_eq_pieces.2] at hmid
  obtain ⟨pieces, hpieces, rfl⟩ := hmid.exists_pieces
  cases last with
  | nil => exact False.elim hlast
  | cons q' behind' =>
    have hblocks := (Plant.alikeAll_pieces hpieces).1
    have hfragments : (pieces.flatMap fun y => y.1.fragments) = fragmentsAll l := by
      rw [fragmentsAll, ← map_fst_piecesAll, ← hblocks, List.flatMap_map]
    refine ⟨ps, front', pieces, q', behind', ⟨hready, hrow, fun y hy => ?_, fun y hy f hf => ?_, ?_⟩, halike,
      hlast.1.id_eq, hpieces⟩
    · rcases List.mem_append.1 hy with hy | hy
      · obtain ⟨z, hz, hblock, halike⟩ := Plant.exists_alike hpieces hy
        rw [piecesAll_eq, List.mem_flatMap] at hz
        obtain ⟨x, hx, hz⟩ := hz
        rw [hblock, halike.map_id]
        exact hspans x (List.mem_append_left _ hx) z hz
      · rw [piecesAll_eq, List.mem_flatMap] at hy
        obtain ⟨x, hx, hy⟩ := hy
        exact hspans x (List.mem_append_right _ hx) y hy
    · exact g.emptied f (hemptied (hfragments ▸ List.mem_flatMap.2 ⟨y, hy, hf⟩))
    · rwa [hfragments]

/-- The template's own nodes are none of the items'. -/
theorem roots_apart (g : d.Exposes c [] ⟨ys, emptied⟩ (listing i roots (.child b, .child n []) l)) {m : NodeId}
    (hm : m ∈ Plant.idsAll roots) : m ∉ (plantsAll l).flatten.map Plant.id := by
  intro hmem
  have hnd := g.nodup_nodes
  rw [nodes_listing, List.append_assoc, List.append_assoc] at hnd
  refine (List.nodup_append.1 hnd).2.2 m hm m ?_ rfl
  exact List.mem_append_right _ (List.mem_append_left _ (Proper.ids.2 _ g.proper.items
    (mem_idsAll_of_mem_map hmem)))

/-- When the pieces of one list are exchanged for those of another one, the use comes to the other list. -/
theorem alike_exchange (g : d.Exposes c [] ⟨ys, emptied⟩ (listing i roots (.child b, .child n []) l))
    (b' : ChildBinding) {ps : List Plant} {pieces new : List (Block × List Plant)}
    (halike : Plant.AlikeAll ps (listing i roots (.child b, .child n []) l).plants)
    (hpieces : List.Forall₂ Plant.AlikePiece pieces (piecesAll l))
    (hnew : List.Forall₂ Plant.AlikePiece new (piecesAll zs)) :
    Plant.AlikeAll (Plant.graftAll (Plant.exchange n (pieces.flatMap fun y => y.2.map Plant.id)
      (new.flatMap Prod.snd)) ps) (listing i roots (.child b', .child n []) zs).plants := by
  have hids : (pieces.flatMap fun y => y.2.map Plant.id) = (plantsAll l).flatten.map Plant.id := by
    rw [plants_eq_pieces.2, ← (Plant.alikeAll_pieces hpieces).2.map_id, List.map_flatMap]
  have hgraft := halike.graft (Plant.respects_exchange n (pieces.flatMap fun y => y.2.map Plant.id)
    (Plant.alikeAll_pieces hnew).2)
  rw [plants_listing, hids, Plant.graftAll_exchange_before (fun r hr => List.mem_map_of_mem hr)
    fun m hm => g.roots_apart hm, ← plants_eq_pieces.2] at hgraft
  rwa [hids, plants_listing]

/-- The blocks of another list are shown, of which each item is in place already or stands nowhere yet. -/
theorem relist (g : d.Exposes c [] ⟨ys, emptied⟩ (listing i roots (.child b, .child n []) l))
    (hspans : ∀ x ∈ l ++ ys, ∀ y ∈ x.pieces, y.1.Spans (y.2.map Plant.id))
    (hemptied : fragmentsAll l ⊆ emptied) (hnodup : (fragmentsAll l).Nodup)
    (hentries : b.entries = l.flatMap blocks) (hzs : ProperAll zs) (hperm : (l ++ ys).Perm (zs ++ rest))
    (horder : (l.flatMap blocks ++ ys.flatMap blocks).Nodup →
      common (l.flatMap blocks) (zs.flatMap blocks) = common (zs.flatMap blocks) (l.flatMap blocks)) :
    ∃ d', b.showBlocks d (zs.flatMap blocks) = ({ b with entries := zs.flatMap blocks }, d') ∧ d.Grows d' ∧
      d'.Exposes c [] ⟨[], fragmentsAll zs⟩
        (listing i roots (.child { b with entries := zs.flatMap blocks }, .child n []) zs) ∧
      (fragmentsAll zs).Nodup := by
  obtain ⟨ps, front, pieces, q, behind, hlineup, halike, rfl, hpieces⟩ := g.exists_lineup hspans hemptied hnodup
  -- the pieces of the new list are some of those in place and of those that stand nowhere yet
  have hflat : (piecesAll l ++ piecesAll ys).Perm (piecesAll zs ++ piecesAll rest) := by
    simp only [piecesAll_eq, ← List.flatMap_append]
    exact hperm.flatMap_right Exhibit.pieces
  obtain ⟨new, rest', hnew, hperm'⟩ := Plant.exists_alike_part
    (List.rel_append hpieces (List.forall₂_same.2 fun y _ => ⟨rfl, .refl y.2⟩)) hflat
  have hold := (Plant.alikeAll_pieces hpieces).1
  have hnew' := Plant.alikeAll_pieces hnew
  rw [map_fst_piecesAll] at hold hnew'
  have hsupports := hlineup.ready.supports (.child b, .child q.id []) (by simp [entries_listing])
  obtain ⟨d', hshown, hgrown, hready, hempty, hnd⟩ := hlineup.exchange hsupports.1 (hentries.trans hold.symm)
    hperm' (by
      rw [hold, hnew'.1]
      refine horder ?_
      have hblocks := hlineup.nodup_blocks
      rwa [List.map_append, hold, map_fst_piecesAll] at hblocks)
  rw [hnew'.1] at hshown
  have hfragments : (new.flatMap fun y => y.1.fragments) = fragmentsAll zs := by
    rw [fragmentsAll, ← hnew'.1, List.flatMap_map]
  have hentries' : (entriesAll l ++ entriesAll ys).Perm (entriesAll zs ++ entriesAll rest) := by
    simp only [entriesAll_eq, ← List.flatMap_append]
    exact hperm.flatMap_right Exhibit.entries
  have hnodes : ((listing i roots (.child b, .child q.id []) l).nodes ++ nodesAll ys).Perm
      ((listing i roots (.child { b with entries := zs.flatMap blocks }, .child q.id []) zs).nodes
        ++ nodesAll rest) := by
    have hitems : (nodesAll l ++ nodesAll ys).Perm (nodesAll zs ++ nodesAll rest) := by
      simp only [nodesAll_eq, ← List.flatMap_append]
      exact hperm.flatMap_right Exhibit.nodes
    have hcontent : Plant.idsAll (Spot.child q.id []).content = [] := rfl
    rw [nodes_listing, nodes_listing, hcontent, List.append_nil, List.append_nil, List.append_assoc _ (nodesAll l),
      List.append_assoc _ (nodesAll zs)]
    exact hitems.append_left _
  refine ⟨d', hshown, hgrown, ?_, hfragments ▸ hnd⟩
  exact {
    ready := by
      refine ⟨_, ?_, g.alike_exchange _ halike hpieces hnew⟩
      rw [entries_listing] at hready ⊢
      have hrest := (hready.perm (.refl _) (hentries'.cons _)).forget ((List.sublist_append_left ..).cons_cons _)
      rw [entriesAll, List.append_nil]
      exact hrest.remember rfl rfl
    proper := g.proper.listing _ hzs
    nodup := by
      rw [nodesAll, List.append_nil]
      exact ((hnodes.cons c).nodup_iff.1 g.nodup).sublist ((List.sublist_append_left ..).cons_cons _)
    has := fun m hm => by
      rw [nodesAll, List.append_nil] at hm
      exact hgrown.has (g.has m (hnodes.mem_iff.2 (List.mem_append_left _ hm)))
    aside := List.forall_mem_nil _
    emptied := fun f hf => by
      obtain ⟨y, hy, hf⟩ := List.mem_flatMap.1 (hfragments ▸ hf)
      exact hempty y hy f hf
    free := fun e _ => List.forall_mem_nil _
    has_fixed := List.forall_mem_nil _ }

end Document.Exposes

end LiveMarkup
