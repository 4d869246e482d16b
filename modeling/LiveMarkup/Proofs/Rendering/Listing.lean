import LiveMarkup.Proofs.Rendering.Repetition
import LiveMarkup.Proofs.Rendering.Stocking
/-!
# A list in the one hole of a template

A use of a template with one hole in which a list is shown comes to the content of the template with the
items between the siblings of the placeholder (`Exhibit.plants_listing`, `Plant.exists_site`). Wherever the
nodes of the use stand, those of the items make up a run of children in front of the placeholder
(`Document.Exposes.exists_run`).
-/

namespace LiveMarkup

open Exhibit

namespace Plant

variable {n : NodeId} {ps row new : List Plant}

theorem Row.sublist (h : Row ps row) : (idsAll row).Sublist (idsAll ps) := by
  induction h with
  | self ps => exact List.Sublist.refl _
  | @inside ps row children id tag mem _ ih =>
    obtain ⟨front, behind, rfl⟩ := List.append_of_mem mem
    rw [idsAll_append, idsAll_cons, ids]
    exact ih.trans (((List.sublist_cons_self ..).trans (List.sublist_append_left ..)).trans
      (List.sublist_append_right ..))

/-- What is put in front of a node is put between the siblings of that node. -/
theorem Row.before (h : Row ps row) (hnd : (idsAll ps).Nodup) (hn : n ∈ row.map Plant.id)
    (new : List Plant) : Row (graftAll (Plant.before n new) ps) (graftAll (Plant.before n new) row) := by
  induction h with
  | self ps => exact .self _
  | @inside ps row children id tag mem hrow ih =>
    have hnd' : (id :: idsAll children).Nodup := by
      obtain ⟨front, behind, rfl⟩ := List.append_of_mem mem
      rw [idsAll_append, idsAll_cons, ids, List.nodup_append, List.nodup_append] at hnd
      exact hnd.2.1.1
    have hne : id ≠ n := fun he =>
      (List.nodup_cons.1 hnd').1 (hrow.ids_subset (he ▸ Document.mem_idsAll_of_mem_map hn))
    have hput : element id tag (graftAll (Plant.before n new) children)
        ∈ graftAll (Plant.before n new) ps := by
      refine mem_graftAll.2 ⟨_, mem, ?_⟩
      rw [graft, Plant.before, id_element, if_neg hne]
      exact List.mem_singleton_self _
    exact .inside hput (ih (List.nodup_cons.1 hnd').2 hn)

/-- A node is between siblings, and others can be put in front of it there. -/
theorem exists_site (hnd : (idsAll ps).Nodup) (hn : n ∈ idsAll ps) :
    ∃ (front : List Plant) (q : Plant) (behind : List Plant), q.id = n ∧
      ∀ new, Row (graftAll (Plant.before n new) ps) (front ++ new ++ q :: behind) := by
  obtain ⟨row, hrow, q, hq, rfl⟩ := exists_row.2 ps hn
  obtain ⟨front, behind, rfl⟩ := List.append_of_mem hq
  refine ⟨front, q, behind, rfl, fun new => ?_⟩
  have hrow' := hrow.before hnd (List.mem_map_of_mem hq) new
  have hids := hnd.sublist hrow.sublist
  rw [idsAll_append, idsAll_cons, ids_eq, List.cons_append, List.nodup_middle, List.nodup_cons] at hids
  have hkeep : ∀ {ps : List Plant}, idsAll ps ⊆ idsAll front ++ (idsAll q.children ++ idsAll behind) →
      graftAll (Plant.before q.id new) ps = ps := fun hsub =>
    graftAll_eq_self fun r hr => if_neg fun he : r.id = q.id => hids.1 (hsub (he ▸ hr))
  have hq' : q.graft (Plant.before q.id new) = new ++ [q] := by
    have hself : ∀ r : Plant, Plant.before r.id new r = new ++ [r] := fun r => if_pos rfl
    cases q with
    | element id tag children =>
      have hchildren : graftAll (Plant.before (element id tag children).id new) children = children :=
        hkeep fun n hn => List.mem_append_right _ (List.mem_append_left _ hn)
      rw [graft, hchildren]
      exact hself _
    | text id data => exact hself _
    | comment id data => exact hself _
  rw [graftAll_append, graftAll_cons, hq', hkeep (List.subset_append_left ..),
    hkeep fun n hn => List.mem_append_right _ (List.mem_append_right _ hn)] at hrow'
  simpa using hrow'

end Plant

namespace Exhibit

variable {i : Instance} {roots : List Plant} {e : Binding × Spot} {xs xs' : List Exhibit}

/-- A use of a template with one hole, in which a list is shown. -/
def listing (i : Instance) (roots : List Plant) (e : Binding × Spot) (xs : List Exhibit) : Exhibit :=
  seated i roots [e] [.list xs]

theorem entries_listing : (listing i roots e xs).entries = e :: entriesAll xs := by
  rw [listing, entries_seated]
  simp [entriesAll, entries]

theorem nodes_listing : (listing i roots e xs).nodes
    = Plant.idsAll roots ++ e.1.texts ++ nodesAll xs ++ Plant.idsAll e.2.content := by
  rw [listing, nodes_seated]
  simp [nodesAll, nodes]

theorem plants_listing {b : ChildBinding} {n : NodeId} :
    (listing i roots (.child b, .child n []) xs).plants
      = Plant.graftAll (Plant.before n (plantsAll xs).flatten) roots := by
  have hadded : added [(.child b, .child n [])] [.list xs]
      = Trimming.none.join (.leading n (plantsAll xs).flatten) := by
    rw [added_cons, Spot.trimmingWith, Spot.trimming, Trimming.leading_nil, plants]
    exact Trimming.join_none _
  rw [listing, plants_seated, hadded, ← Trimming.graftAll_before_put, Trimming.graftAll_put_none]
  exact ⟨fun _ => List.not_mem_nil, fun _ _ h => by cases h⟩

/-- The binding can remember something else and the items can be others, as long as these are made
properly. -/
theorem Proper.listing {b : ChildBinding} {n : NodeId}
    (h : (listing i roots (.child b, .child n []) xs).Proper) (b' : ChildBinding) (hxs : ProperAll xs') :
    (Exhibit.listing i roots (.child b', .child n []) xs').Proper := by
  rw [Exhibit.listing, proper_seated] at h ⊢
  obtain ⟨⟨c, hcoherent, hplain, htrees, hseats⟩, -⟩ := h
  refine ⟨⟨c, hcoherent, hplain, htrees, ?_⟩, hxs, trivial⟩
  generalize c.holes = holes at hseats ⊢
  cases hseats with
  | cons hat _ hleaf hrest =>
    exact .cons (at_of_child hat) (List.forall_mem_nil _)
      (fun hkind => by obtain ⟨v, hv⟩ := hleaf hkind; cases hv) hrest

theorem Proper.items (h : (Exhibit.listing i roots e xs).Proper) : ProperAll xs := by
  rw [Exhibit.listing, proper_seated] at h
  exact h.2.1

theorem aroundAll_listing {kept : List NodeId} (i : Instance) (roots : List Plant) {e : Binding × Spot}
    (he : e.1.held ⊆ kept) : AroundAll kept (Exhibit.listing i roots e) := by
  have hes : ∀ e' ∈ [e] ++ entriesAll [] ++ entriesAll [], e'.1.held ⊆ kept := by
    simpa [entriesAll] using he
  exact ((Around.self kept).hole i roots hes).items

end Exhibit

/-- Some of what has no repetition is exchanged for part of it. -/
theorem nodup_exchange {α : Type} {front middle middle' behind : List α}
    (h : (front ++ middle ++ behind).Nodup) (hnd : middle'.Nodup) (hsub : middle' ⊆ middle) :
    (front ++ middle' ++ behind).Nodup := by
  rw [List.nodup_append, List.nodup_append] at h ⊢
  obtain ⟨⟨hfront, -, hapart⟩, hbehind, hapart'⟩ := h
  refine ⟨⟨hfront, hnd, fun a ha b hb => hapart a ha b (hsub hb)⟩, hbehind, fun a ha b hb => ?_⟩
  exact hapart' a ((List.mem_append.1 ha).elim (List.mem_append_left _) fun ha =>
    List.mem_append_right _ (hsub ha)) b hb

namespace Document.Exposes

variable {d : Document} {c n : NodeId} {fixed : List NodeId} {stock : Stock} {i : Instance}
  {roots : List Plant} {b : ChildBinding} {x : Exhibit} {xs l r : List Exhibit}

/-- The nodes of the items stand in front of the placeholder, between nodes of the template. -/
theorem exists_run (g : d.Exposes c fixed stock (listing i roots (.child b, .child n []) xs)) :
    ∃ (ps row front : List Plant) (q : Plant) (behind : List Plant),
      d.Ready (some c) ps (piecesAll stock.exhibits)
        ((listing i roots (.child b, .child n []) xs).entries ++ entriesAll stock.exhibits) ∧
      Plant.AlikeAll ps (listing i roots (.child b, .child n []) xs).plants ∧ Plant.Row ps row ∧
      Plant.AlikeAll row (front ++ (plantsAll xs).flatten ++ q :: behind) ∧ q.id = n := by
  obtain ⟨ps, hready, halike⟩ := g.ready
  have hroots : (Plant.idsAll roots).Nodup := by
    have hnd := g.nodup_nodes
    rw [nodes_listing, List.append_assoc, List.append_assoc] at hnd
    exact (List.nodup_append.1 hnd).1
  have hn : n ∈ Plant.idsAll roots := by
    obtain ⟨⟨c, -, -, -, hseats⟩, -⟩ := proper_seated.1 g.proper
    generalize c.holes = holes at hseats
    cases hseats with
    | cons hat => exact hat.place_mem
  obtain ⟨front, q, behind, hq, hsite⟩ := Plant.exists_site hroots hn
  have hplants := halike
  rw [plants_listing] at hplants
  obtain ⟨row, hrow, halike'⟩ := hplants.exists_row (hsite _)
  exact ⟨ps, row, front, q, behind, hready, halike, hrow, halike', hq⟩

/-- No node occurs twice in what the items come to. -/
theorem nodup_items (g : d.Exposes c fixed stock (listing i roots (.child b, .child n []) xs)) :
    (Plant.idsAll (plantsAll xs).flatten).Nodup := by
  obtain ⟨ps, row, front, q, behind, hready, -, hrow, halike, -⟩ := g.exists_run
  obtain ⟨p, hp⟩ := hready.bears.of_row hrow
  have hnd := (List.nodup_cons.1 (hp.nodup g.sound.forest)).2
  rw [halike.idsAll, Plant.idsAll_append, Plant.idsAll_append] at hnd
  exact hnd.sublist ((List.sublist_append_right ..).trans (List.sublist_append_left ..))

theorem nodup_item (g : d.Exposes c fixed stock (listing i roots (.child b, .child n []) xs)) (hx : x ∈ xs) :
    (Plant.idsAll x.plants).Nodup := by
  obtain ⟨l, r, rfl⟩ := List.append_of_mem hx
  have hnd := g.nodup_items
  rw [plantsAll_append, plantsAll, List.flatten_append, List.flatten_cons, Plant.idsAll_append,
    Plant.idsAll_append] at hnd
  exact hnd.sublist ((List.sublist_append_left ..).trans (List.sublist_append_right ..))

/-- What an item of the list has shown is given up, and its nodes stay where they are. -/
theorem give_up_item (g : d.Exposes c fixed stock (listing i roots (.child b, .child n []) (l ++ x :: r)))
    (huse : ∃ i roots spots holes, x = .use i roots spots holes) :
    d.Exposes c fixed stock (listing i roots (.child b, .child n []) (l ++ x.idle :: r)) := by
  obtain ⟨j, tops, spots, holes, rfl⟩ := huse
  obtain ⟨hleft, hx, hright⟩ : ProperAll l ∧ (Exhibit.use j tops spots holes).Proper ∧ ProperAll r := by
    have hall := properAll_iff.1 g.proper.items
    exact ⟨properAll_iff.2 fun y hy => hall y (by simp [hy]), hall _ (by simp),
      properAll_iff.2 fun y hy => hall y (by simp [hy])⟩
  have hids : (Plant.idsAll (Exhibit.use j tops spots holes).plants).Nodup := g.nodup_item (by simp)
  have hsub : (Exhibit.use j tops spots holes).idle.nodes ⊆ (Exhibit.use j tops spots holes).nodes := by
    rw [nodes_idle]
    exact Proper.ids.1 _ hx
  refine g.give_up (g.proper.listing b ?_) ?_ ?_ ?_ ?_
  · have hleft := properAll_iff.1 hleft
    have hright := properAll_iff.1 hright
    refine properAll_iff.2 fun y hy => ?_
    rcases List.mem_append.1 hy with hy | hy
    · exact hleft y hy
    · rcases List.mem_cons.1 hy with rfl | hy
      · exact proper_idle j tops spots holes
      · exact hright y hy
  · rw [plants_listing, plants_listing, plantsAll_append, plantsAll_append, plantsAll, plantsAll,
      plants_idle]
  · rw [entries_listing, entries_listing, entriesAll_append, entriesAll_append, entriesAll, entriesAll,
      entries_idle, List.nil_append]
    exact ((List.sublist_append_right ..).append_left _).cons_cons _
  · rw [nodes_listing, nodes_listing, nodesAll_append, nodesAll_append, nodesAll, nodesAll]
    intro m hm
    simp only [List.mem_append] at hm ⊢
    have := @hsub m
    tauto
  · have hnd := g.nodup_nodes
    rw [nodes_listing, nodesAll_append, nodesAll] at hnd ⊢
    have hsplit : ∀ X : List NodeId, Plant.idsAll roots ++ (Binding.child b).texts
        ++ (nodesAll l ++ (X ++ nodesAll r)) ++ Plant.idsAll (Spot.child n []).content
        = Plant.idsAll roots ++ (Binding.child b).texts ++ nodesAll l ++ X
          ++ (nodesAll r ++ Plant.idsAll (Spot.child n []).content) := by simp
    rw [hsplit] at hnd ⊢
    exact nodup_exchange hnd (by rwa [nodes_idle]) hsub

end Document.Exposes

end LiveMarkup
