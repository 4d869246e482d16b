import LiveMarkup.Proofs.Rendering.Tables
/-!
# A list that is shown for the first time

When a list of rows is shown where nothing has been shown, the rows are put in front of the placeholder as they
are taken out of the fragments that they were made in, and these are empty from then on
(`Level.use_vacates`). So a container in which such a list has been rendered is one in which other lists can
take its place (`Renderer.tables_render`).
-/

namespace LiveMarkup

open Exhibit

namespace Exhibit

variable {x : Exhibit} {p : Plan} {block : Block} {xs : List Exhibit} {ps : List Plan}

/-- What is made of a list of rows in the one hole of a template. -/
theorem eq_listing {space : Markup.Namespace} {template : Template} {compiled : Compiled} {path : List Nat}
    (hx : x.Shows (.use space template compiled [.list ps])) (hholes : compiled.holes = [⟨.child, path⟩])
    (hps : ∀ p ∈ ps, p.IsRow) :
    ∃ i roots b n xs, x = listing i roots (.child b, .child n []) xs ∧ i.bindings = [.child b] ∧
      b.entries = xs.flatMap blocks := by
  cases x with
  | leaf | list => exact False.elim hx
  | use i roots spots ys =>
    obtain ⟨-, -, -, -, -, hlength, hshown, hall⟩ := hx
    rw [hholes] at hshown
    cases hzip : i.bindings.zip spots with
    | nil => rw [hzip] at hshown; cases hshown
    | cons e es =>
      rw [hzip] at hshown
      cases hshown with
      | @cons _ _ y _ _ _ _ _ hat hs _ hrest =>
        cases hrest
        obtain ⟨b, n, plants, rfl⟩ := hat.child rfl
        rw [Shown, Plan.IsRow.primitive? hps] at hs
        obtain ⟨-, hentries, rfl⟩ := hs
        have hb : i.bindings = [.child b] := by
          rw [← List.map_fst_zip (Nat.le_of_eq hlength), hzip]
          rfl
        have hspots : spots = [.child n []] := by
          rw [← List.map_snd_zip (Nat.le_of_eq hlength.symm), hzip]
          rfl
        cases y with
        | leaf | use => exact False.elim hall.1
        | list xs =>
          refine ⟨i, roots, b, n, xs, ?_, hb, hentries.trans (blocks_list xs)⟩
          rw [listing, seated, List.map_singleton, List.map_singleton, ← hb, hspots]

/-- The nodes of a row stand in their order among those that it comes to. -/
theorem sublist_of_isRow (hp : p.IsRow) (hx : x.Shows p) (hb : block ∈ x.blocks) :
    block.nodes.Sublist (x.plants.map Plant.id) := by
  cases hp with
  | use =>
    cases x with
    | leaf | list => exact False.elim hx
    | use i roots spots holes =>
      obtain ⟨-, -, htops, -⟩ := hx
      rw [blocks, pieces, List.map_singleton, List.mem_singleton] at hb
      rw [hb, htops, plants]
      exact Trimming.sublist_map_id_graftAll_put

/-- The nodes of some rows are among those that the rows are made of. -/
theorem blocks_subset_nodes (hps : ∀ p ∈ ps, p.IsRow) (hxs : ShowsAll xs ps) (hproper : ProperAll xs)
    (hb : block ∈ xs.flatMap blocks) : block.nodes ⊆ nodesAll xs := by
  obtain ⟨x, hx, hb⟩ := List.mem_flatMap.1 hb
  obtain ⟨p, hp, hxp⟩ := exists_shows hxs hx
  intro n hn
  rw [nodesAll_eq, List.mem_flatMap]
  refine ⟨x, hx, Proper.ids.1 x (properAll_iff.1 hproper x hx) ?_⟩
  exact Document.mem_idsAll_of_mem_map ((sublist_of_isRow (hps p hp) hxp hb).subset hn)

end Exhibit

namespace Renderer

variable {r : Renderer} {container : NodeId} {space : Markup.Namespace} {template : Template}
  {path : List Nat} {items : List Value}

/-- A container in which a list of rows has been rendered into the one hole of a template is one in which
another list can be shown. -/
theorem tables_render (hr : r.Sound) (hhas : r.document.Has container)
    (helement : r.document.isElement container = true)
    (hcache : r.containers.lookup container = none)
    (hv : (Value.invocation space template [.list items]).Fits)
    (hholes : (template.compilation space).compiled.holes = [⟨.child, path⟩])
    (hps : ∀ p ∈ Value.toPlans items, p.IsRow) :
    ∃ r' n i roots b xs, r.render container (.invocation space template [.list items]) = (.ok (), r') ∧
      r'.catalogue.Sound ∧
      r'.document.Tables container n i roots b space template (template.compilation space).compiled
        (Value.toPlans items) xs ∧
      r'.cacheOf container = (listing i roots (.child b, .child n []) xs).cache ∧
      ∀ block ∈ xs.flatMap blocks, ∀ m ∈ block.nodes, ¬ r.document.Has m := by
  obtain ⟨r', x, hrender, hdisplays, hx, -, hnovel, hvacated⟩ := displays_render hr hhas helement hcache hv
  have hfits := hv.toPlan
  rw [Value.toPlan, Value.toPlans, Value.toPlan, Value.toPlans] at hfits hx
  obtain ⟨i, roots, b, n, xs, rfl, hb, hentries⟩ := eq_listing hx hholes hps
  have g := hdisplays.exposes hx hfits
  have hvacated' : r'.document.Vacated (fragmentsAll xs) := by
    rw [entries_listing, placed_cons] at hvacated
    rw [fragmentsAll, ← hentries]
    exact hvacated.sublist (List.sublist_append_left ..)
  refine ⟨r', n, i, roots, b, xs, hrender, hdisplays.sound.catalogue, ⟨⟨g.ready, g.proper, g.nodup,
    g.has, g.aside, hvacated'.empty, fun e _ => List.forall_mem_nil _,
    List.forall_mem_nil _⟩, hvacated'.nodup, hx, hps⟩, hdisplays.cache, fun block hblock m hm => ?_⟩
  have hproper := proper_of_shows.1 _ _ hx hfits
  obtain ⟨-, -, -, hall⟩ := of_shows_listing hps hx
  refine (hnovel.new m ?_).1
  rw [nodes_listing]
  refine List.mem_append_left _ (List.mem_append_right _ ?_)
  exact blocks_subset_nodes hps hall hproper.items hblock hm

end Renderer

end LiveMarkup
