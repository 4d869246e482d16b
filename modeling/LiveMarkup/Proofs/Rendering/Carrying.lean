import LiveMarkup.Proofs.Rendering.Interchange
import LiveMarkup.Proofs.Rendering.Recasting
/-!
# What is carried from one value to the next

When a value is followed by another one, some of what has been on show stays, some of it has to go, and the rest
is made anew (`Exhibit.Becomes`). Until a binding has been brought up to date, what has to go stands where it was,
and what has been made stands nowhere. All the while the fragments of the blocks that are in place are empty
(`Document.Carries`), so that these can be taken out again.
-/

namespace LiveMarkup

open Exhibit
open Turnover (common_eq_nil common_parts)

namespace Exhibit

/-! ### What becomes of some exhibits -/

theorem common_comm_of_disjoint {A B : List Block} (h : ∀ e ∈ A, e ∉ B) : common A B = common B A := by
  rw [common_eq_nil h, common_eq_nil fun e he he' => h e he' he]

/-- Some exhibits give way to others, of which some have been made in between. Whatever is not made stays in its
order, no binding is lost, and nothing comes in that has not been there or been made. -/
structure Becomes (zs ys xs : List Exhibit) : Prop where
  pieces : ∃ gone, gone.Sublist (piecesAll zs) ∧ (piecesAll zs ++ piecesAll ys).Perm (piecesAll xs ++ gone)
  order : ((piecesAll zs ++ piecesAll ys).map Prod.fst).Nodup →
    common ((piecesAll zs).map Prod.fst) ((piecesAll xs).map Prod.fst)
      = common ((piecesAll xs).map Prod.fst) ((piecesAll zs).map Prod.fst)
  entries : (entriesAll zs ++ entriesAll ys).Perm (entriesAll xs)
  nodes : ∃ lost, (nodesAll zs ++ nodesAll ys).Perm (nodesAll xs ++ lost)
  spans : ∀ y ∈ piecesAll zs ++ piecesAll ys, y.1.Spans (y.2.map Plant.id)

variable {x y z : Exhibit} {xs xs' ys ys' zs zs' : List Exhibit}

theorem piecesAll_singleton (x : Exhibit) : piecesAll [x] = x.pieces := by
  rw [piecesAll, piecesAll, List.append_nil]

theorem entriesAll_singleton (x : Exhibit) : entriesAll [x] = x.entries := by
  rw [entriesAll, entriesAll, List.append_nil]

theorem nodesAll_singleton (x : Exhibit) : nodesAll [x] = x.nodes := by
  rw [nodesAll, nodesAll, List.append_nil]

namespace Becomes

theorem refl (h : ∀ y ∈ piecesAll xs, y.1.Spans (y.2.map Plant.id)) : Becomes xs [] xs where
  pieces := ⟨[], List.nil_sublist _, .refl _⟩
  order _ := rfl
  entries := by rw [entriesAll, List.append_nil]
  nodes := ⟨[], by rw [nodesAll]⟩
  spans := by rwa [piecesAll, List.append_nil]

/-- What has nothing that could be brought up to date is replaced. -/
theorem replaced (hz : entriesAll zs = [])
    (h : ∀ y ∈ piecesAll zs ++ piecesAll ys, y.1.Spans (y.2.map Plant.id)) : Becomes zs ys ys where
  pieces := ⟨piecesAll zs, .refl _, List.perm_append_comm⟩
  order hnd := by
    rw [List.map_append, List.nodup_append] at hnd
    exact common_comm_of_disjoint fun e he he' => hnd.2.2 e he e he' rfl
  entries := by rw [hz, List.nil_append]
  nodes := ⟨nodesAll zs, List.perm_append_comm⟩
  spans := h

/-- What is in the place of some exhibits comes from there, or has been made. -/
theorem mem_blocks (h : Becomes zs ys xs) {e : Block} (he : e ∈ (piecesAll xs).map Prod.fst) :
    e ∈ (piecesAll zs).map Prod.fst ∨ e ∈ (piecesAll ys).map Prod.fst := by
  obtain ⟨gone, -, hperm⟩ := h.pieces
  have hmem := (hperm.map Prod.fst).mem_iff.2 (by rw [List.map_append]; exact List.mem_append_left _ he)
  rwa [List.map_append, List.mem_append] at hmem

theorem append (h : Becomes zs ys xs) (h' : Becomes zs' ys' xs') :
    Becomes (zs ++ zs') (ys ++ ys') (xs ++ xs') where
  pieces := by
    classical
    obtain ⟨gone, hgone, hperm⟩ := h.pieces
    obtain ⟨gone', hgone', hperm'⟩ := h'.pieces
    rw [piecesAll_append, piecesAll_append, piecesAll_append]
    refine ⟨gone ++ gone', hgone.append hgone', ?_⟩
    rw [List.perm_iff_count] at hperm hperm' ⊢
    intro e
    have he := hperm e
    have he' := hperm' e
    simp only [List.count_append] at he he' ⊢
    omega
  order hnd := by
    rw [piecesAll_append, piecesAll_append, List.map_append, List.map_append, List.map_append] at hnd
    have hparts : ((piecesAll zs ++ piecesAll ys).map Prod.fst
        ++ (piecesAll zs' ++ piecesAll ys').map Prod.fst).Nodup := by
      refine (List.Perm.nodup_iff ?_).1 hnd
      simp only [List.map_append, List.append_assoc]
      exact (List.perm_append_comm_assoc ..).append_left _
    obtain ⟨hnd₁, hnd₂, hapart⟩ := List.nodup_append.1 hparts
    rw [List.map_append] at hapart
    have hold : ∀ e ∈ (piecesAll zs).map Prod.fst, e ∉ (piecesAll xs').map Prod.fst := fun e he he' => by
      refine hapart e (List.mem_append_left _ he) e ?_ rfl
      rw [List.map_append, List.mem_append]
      exact h'.mem_blocks he'
    have hnew : ∀ e ∈ (piecesAll xs).map Prod.fst, e ∉ (piecesAll zs').map Prod.fst := fun e he he' => by
      refine hapart e (List.mem_append.2 (h.mem_blocks he)) e ?_ rfl
      rw [List.map_append]
      exact List.mem_append_left _ he'
    rw [piecesAll_append, piecesAll_append, List.map_append, List.map_append,
      common_parts hold fun e he he' => hnew e he' he, common_parts hnew fun e he he' => hold e he' he,
      h.order hnd₁, h'.order hnd₂]
  entries := by
    classical
    have hperm := h.entries
    have hperm' := h'.entries
    rw [entriesAll_append, entriesAll_append, entriesAll_append]
    rw [List.perm_iff_count] at hperm hperm' ⊢
    intro e
    have he := hperm e
    have he' := hperm' e
    simp only [List.count_append] at he he' ⊢
    omega
  nodes := by
    obtain ⟨lost, hperm⟩ := h.nodes
    obtain ⟨lost', hperm'⟩ := h'.nodes
    refine ⟨lost ++ lost', ?_⟩
    rw [nodesAll_append, nodesAll_append, nodesAll_append]
    rw [List.perm_iff_count] at hperm hperm' ⊢
    intro n
    have hn := hperm n
    have hn' := hperm' n
    simp only [List.count_append] at hn hn' ⊢
    omega
  spans := by
    have hspans := h.spans
    have hspans' := h'.spans
    rw [piecesAll_append, piecesAll_append]
    simp only [List.forall_mem_append] at hspans hspans' ⊢
    exact ⟨⟨hspans.1, hspans'.1⟩, hspans.2, hspans'.2⟩

/-- The items of a list become those of another one. -/
theorem list (h : Becomes zs ys xs) : Becomes [.list zs] ys [.list xs] := by
  obtain ⟨hpieces, horder, hentries, hnodes, hspans⟩ := h
  have heq : ∀ xs, piecesAll [.list xs] = piecesAll xs ∧ entriesAll [.list xs] = entriesAll xs ∧
      nodesAll [.list xs] = nodesAll xs := fun xs =>
    ⟨piecesAll_singleton _, entriesAll_singleton _, nodesAll_singleton _⟩
  constructor <;> simpa only [heq]

/-- What is made can be made as a list. -/
theorem asList (h : Becomes zs ys xs) : Becomes zs [.list ys] xs := by
  obtain ⟨hpieces, horder, hentries, hnodes, hspans⟩ := h
  have heq : piecesAll [.list ys] = piecesAll ys ∧ entriesAll [.list ys] = entriesAll ys ∧
      nodesAll [.list ys] = nodesAll ys := ⟨piecesAll_singleton _, entriesAll_singleton _, nodesAll_singleton _⟩
  constructor <;> simpa only [heq]

/-- What has been made is kept alive by what becomes of it. -/
theorem held (h : Becomes zs ys xs) {nodes : List NodeId} (hpieces : ∀ y ∈ piecesAll xs, y.1.held ⊆ nodes)
    (hentries : ∀ e ∈ entriesAll xs, e.1.held ⊆ nodes) : Stock.held ⟨ys, []⟩ ⊆ nodes := by
  classical
  obtain ⟨gone, hgone, hperm⟩ := h.pieces
  refine Stock.held_subset.2 ⟨⟨fun y hy => hpieces y ?_, fun e he => hentries e ?_⟩, List.nil_subset _⟩
  · have hcount := (List.perm_iff_count.1 hperm) y
    have hle := hgone.count_le y
    have hpos := List.count_pos_iff.2 hy
    rw [List.count_append, List.count_append] at hcount
    exact List.count_pos_iff.1 (by dsimp only at hpos; omega)
  · exact h.entries.mem_iff.1 (List.mem_append_right _ he)

/-- What has been made is kept alive by the exhibit that comes of it. -/
theorem held_single (h : Becomes [z] ys [x]) : Stock.held ⟨ys, []⟩ ⊆ x.held :=
  h.held (fun y hy => pieces_held.1 x y (by rwa [piecesAll_singleton] at hy)) fun e he =>
    entries_held.1 x e (by rwa [entriesAll_singleton] at he)

/-- The bindings of what is in place are among those of the exhibit that comes of it. -/
theorem entries_single (h : Becomes [z] ys [x]) : z.entries ⊆ x.entries := fun e he => by
  have hperm := h.entries
  rw [entriesAll_singleton, entriesAll_singleton] at hperm
  exact hperm.mem_iff.1 (List.mem_append_left _ he)

end Becomes

end Exhibit

namespace Document

variable {d d' : Document} {c : NodeId} {fixed nodes fs fs' : List NodeId} {stock : Stock} {x y : Exhibit}
  {made made' ys : List Exhibit}

/-- The order in which things have been made does not matter, and other fragments may be empty. -/
theorem Exposes.restock (g : d.Exposes c fixed stock x) (hperm : stock.exhibits.Perm made)
    (hempty : ∀ f ∈ fs, d.Has f ∧ d.isFragment f = true ∧ d.children f = []) :
    d.Exposes c fixed ⟨made, fs⟩ x := by
  have hpieces : (piecesAll stock.exhibits).Perm (piecesAll made) := by
    rw [piecesAll_eq, piecesAll_eq]
    exact hperm.flatMap_right _
  have hentries : (entriesAll stock.exhibits).Perm (entriesAll made) := by
    rw [entriesAll_eq, entriesAll_eq]
    exact hperm.flatMap_right _
  have hnodes : (nodesAll stock.exhibits).Perm (nodesAll made) := by
    rw [nodesAll_eq, nodesAll_eq]
    exact hperm.flatMap_right _
  exact {
    ready := by
      obtain ⟨ps, hready, halike⟩ := g.ready
      exact ⟨ps, hready.perm hpieces (hentries.append_left _), halike⟩
    proper := g.proper
    nodup := ((hnodes.append_left _).cons c).nodup_iff.1 g.nodup
    has := fun n hn => g.has n ((hnodes.append_left _).mem_iff.2 hn)
    aside := fun y hy => g.aside y (hpieces.mem_iff.2 hy)
    emptied := hempty
    free := g.free
    has_fixed := g.has_fixed }

/-- The pieces of one exhibit have none of the nodes of another one. -/
def Clear (x y : Exhibit) : Prop :=
  ∀ z ∈ x.pieces, ∀ n, Within z.1.root? z.2 n → n ∉ y.nodes

/-- A node has an exhibit as its content, some things have been made beside it, and nothing is left in the
fragments of the blocks that are in place anywhere. -/
structure Carries (d : Document) (c : NodeId) (made : List Exhibit) (x : Exhibit) : Prop where
  exposes : d.Exposes c [] ⟨made, placed (x.entries ++ entriesAll made)⟩ x
  nodup : (placed (x.entries ++ entriesAll made)).Nodup
  spans : ∀ y ∈ piecesAll made, y.1.Spans (y.2.map Plant.id)
  clear : made.Pairwise fun y z => Clear y z ∧ Clear z y

namespace Carries

theorem vacated (g : d.Carries c made x) : d.Vacated (placed (x.entries ++ entriesAll made)) :=
  ⟨g.nodup, g.exposes.emptied⟩

theorem intro (g : d.Exposes c [] stock x) (hperm : stock.exhibits.Perm made)
    (hv : d.Vacated fs) (hfs : fs.Perm (placed (x.entries ++ entriesAll made)))
    (hspans : ∀ y ∈ piecesAll made, y.1.Spans (y.2.map Plant.id))
    (hclear : made.Pairwise fun y z => Clear y z ∧ Clear z y) : d.Carries c made x :=
  have hv := hv.perm hfs
  ⟨g.restock hperm hv.empty, hv.nodup, hspans, hclear⟩

theorem perm (g : d.Carries c made x) (hperm : made.Perm made') : d.Carries c made' x := by
  refine intro g.exposes hperm g.vacated (placed_perm ?_) (fun y hy => g.spans y ?_)
    ((hperm.pairwise_iff fun h => h.symm).1 g.clear)
  · rw [entriesAll_eq, entriesAll_eq]
    exact (hperm.flatMap_right _).append_left _
  · rw [piecesAll_eq] at hy ⊢
    exact (hperm.flatMap_right _).mem_iff.2 hy

/-- What is carried stays so when all that is not held is let go of. -/
theorem release (g : d.Carries c made x) {custody : Custody} (hc : c ∈ custody.nodes)
    (hmade : Stock.held ⟨made, []⟩ ⊆ custody.nodes) (hheld : ∀ e ∈ x.entries, e.1.held ⊆ custody.nodes) :
    (d.release custody).Carries c made x := by
  obtain ⟨⟨hpieces, hentries⟩, -⟩ := Stock.held_subset.1 hmade
  refine ⟨(g.exposes.release hc (Stock.held_subset.2 ⟨⟨hpieces, hentries⟩, placed_held fun e he => ?_⟩) hheld).1,
    g.nodup, g.spans, g.clear⟩
  exact (List.mem_append.1 he).elim (hheld e) (hentries e)

/-- No node is twice in what is on show. -/
theorem nodup_ids {K : Exhibit → Exhibit} {kept : List NodeId} (g : d.Carries c made (K x)) (hK : Framing kept K) :
    (Plant.idsAll x.plants).Nodup := by
  obtain ⟨ps, hready, halike⟩ := g.exposes.ready
  obtain ⟨front, behind, hrow⟩ := hK.row g.exposes.proper g.exposes.nodup_nodes (.self x.plants)
  obtain ⟨row, hrow', hrows⟩ := halike.exists_row hrow
  obtain ⟨m, hbears⟩ := hready.bears.of_row hrow'
  have hnd := (List.nodup_cons.1 (hbears.nodup hready.sound.forest)).2
  rw [hrows.idsAll, Plant.idsAll_append, Plant.idsAll_append] at hnd
  exact hnd.sublist ((List.sublist_append_right ..).trans (List.sublist_append_left ..))

/-- A value takes the place of another one. -/
theorem leaf {K : Exhibit → Exhibit} {kept : List NodeId} {v : Value} (g : d.Carries c made (K (.leaf v)))
    (hK : Framing kept K) (w : Value) : d.Carries c made (K (.leaf w)) := by
  have g' := g.exposes.leaf hK.toAround w
  obtain ⟨outer, houter⟩ := hK.entries
  exact intro g' (.refl _) ⟨g.nodup, g'.emptied⟩
    (placed_perm (((houter (.leaf v)).trans (houter (.leaf w)).symm).append_right _)) g.spans g.clear

/-- Something new is made beside what is on show. -/
theorem stocked (g : d.Carries c made x) (h : Makes d d' nodes y.pieces y.entries y.nodes)
    (hspans : ∀ z ∈ y.pieces, z.1.Spans (z.2.map Plant.id)) (hc : c ∈ nodes)
    (hx : ∀ e ∈ x.entries, e.1.held ⊆ nodes) (hmade : Stock.held ⟨made, []⟩ ⊆ nodes) :
    d'.Carries c (y :: made) x := by
  obtain ⟨⟨hpieces, hentries⟩, -⟩ := Stock.held_subset.1 hmade
  have hstock : Stock.held ⟨made, placed (x.entries ++ entriesAll made)⟩ ⊆ nodes :=
    Stock.held_subset.2 ⟨⟨hpieces, hentries⟩, placed_held fun e he => (List.mem_append.1 he).elim (hx e) (hentries e)⟩
  have g' := g.exposes.stocked h.presents h.novel hc hx hstock
  have hvacated := h.vacated.append ⟨g.nodup, g'.emptied⟩ fun f hf hf' =>
    (h.fragments.new f (List.mem_append_right _ hf)).1 (g.exposes.emptied f hf').1
  refine intro g' List.perm_append_comm hvacated ?_ ?_
    (List.pairwise_cons.2 ⟨fun z hz => ⟨fun k hk n hn hmem => ?_, fun k hk n hn hmem => ?_⟩, g.clear⟩)
  · rw [← placed_append]
    refine placed_perm ?_
    rw [entriesAll]
    exact List.perm_append_comm_assoc ..
  · rw [piecesAll]
    exact List.forall_mem_append.2 ⟨hspans, g.spans⟩
  · exact h.presents.fresh.nodes k hk n hn
      (g.exposes.has n (List.mem_append_right _ (nodes_subset_nodesAll hz hmem)))
  · obtain ⟨ps, hready, -⟩ := g.exposes.ready
    refine (h.novel.new n hmem).1 ((hready.loose k ?_).has hn)
    rw [piecesAll_eq]
    exact List.mem_flatMap.2 ⟨z, hz, hk⟩

end Carries

end Document

end LiveMarkup
