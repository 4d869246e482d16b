import LiveMarkup.Proofs.Rendering.FirstRender
import LiveMarkup.Proofs.Rendering.Repetition
/-!
# What stays where it is

The nodes of an exhibit are those from the content of its templates and those that its bindings add
(`Exhibit.nodes_perm`), and the former are not touched when the exhibit is brought up to date. The topmost
nodes of each instance are among them, and they are on show (`Exhibit.frames_on_show`). So a container that
displays an exhibit exposes it with all of these fixed (`Renderer.Displays.exposes`).
-/

namespace LiveMarkup

namespace Exhibit

mutual

/-- The nodes that an exhibit has from the content of its templates. -/
def fixtures : Exhibit → List NodeId
  | leaf _ => []
  | use _ roots _ holes => Plant.idsAll roots ++ fixturesAll holes
  | list items => fixturesAll items

/-- The nodes that some exhibits have from the content of their templates. -/
def fixturesAll : List Exhibit → List NodeId
  | [] => []
  | x :: rest => x.fixtures ++ fixturesAll rest

end

/-- The nodes that a binding adds by itself. -/
def extras (e : Binding × Spot) : List NodeId :=
  e.1.texts ++ Plant.idsAll e.2.content

/-- The blocks of all instances of an exhibit. -/
def frames (x : Exhibit) : List Block :=
  x.instances.map Instance.block ++ blocksOfSlots x.slots

variable {x x' y : Exhibit} {xs : List Exhibit} {ps : List Plan} {b : Block}
  {n : NodeId}

theorem extras_perm (es : List (Binding × Spot)) : (es.flatMap extras).Perm
    ((es.map Prod.fst).flatMap Binding.texts ++ Plant.idsAll ((es.map Prod.snd).flatMap Spot.content)) := by
  induction es with
  | nil => simp [Plant.idsAll_nil]
  | cons e es ih =>
    rw [List.perm_iff_count] at ih ⊢
    intro k
    have hk := ih k
    simp only [List.flatMap_cons, List.map_cons, extras, Plant.idsAll_append, List.count_append] at hk ⊢
    omega

/-- The nodes of an exhibit are those from its templates and those that its bindings add. -/
theorem nodes_perm :
    (∀ x : Exhibit, x.Proper → x.nodes.Perm (x.fixtures ++ x.entries.flatMap extras)) ∧
      ∀ xs : List Exhibit, ProperAll xs →
        (nodesAll xs).Perm (fixturesAll xs ++ (entriesAll xs).flatMap extras) := by
  refine induct ?_ ?_ ?_ ?_ ?_
  · intro v _
    exact .refl _
  · intro i roots spots xs ih hx
    have hperm := ih hx.2.2
    rw [fixtures, use_eq_seated hx.1, nodes_seated, entries_seated]
    generalize i.bindings.zip spots = es
    have hextras := extras_perm es
    rw [List.perm_iff_count] at hperm hextras ⊢
    intro k
    have hk := hperm k
    have hk' := hextras k
    simp only [List.flatMap_append, List.count_append] at hk hk' ⊢
    omega
  · intro xs ih hx
    exact ih hx
  · intro _
    exact .refl _
  · intro x xs ihx ihxs hx
    have hperm := ihx hx.1
    have hperms := ihxs hx.2
    rw [nodesAll, fixturesAll, entriesAll]
    rw [List.perm_iff_count] at hperm hperms ⊢
    intro k
    have hk := hperm k
    have hk' := hperms k
    simp only [List.flatMap_append, List.count_append] at hk hk' ⊢
    omega

theorem frames_of_sameBlocks (h : x.SameBlocks x') : x'.frames = x.frames := by
  rw [frames, frames, h.instances, h.slots]

theorem blocks_cache (x : Exhibit) : x.cache.blocks = x.frames := by
  rw [cache, Cache.blocks, frames]

theorem fixtures_subset (hx : x ∈ xs) : x.fixtures ⊆ fixturesAll xs := by
  induction xs with
  | nil => cases hx
  | cons y xs ih =>
    rw [fixturesAll]
    rcases List.mem_cons.1 hx with rfl | hx
    · exact List.subset_append_left ..
    · exact List.Subset.trans (ih hx) (List.subset_append_right ..)

theorem exists_of_mem_blocks (hb : b ∈ (instancesAll xs).map Instance.block ∨
    b ∈ blocksOfSlots (slotsAll xs) ∨ b ∈ blocksOfSlots (slotsOfItems xs)) : ∃ y ∈ xs, b ∈ y.frames := by
  induction xs with
  | nil => simp [instancesAll, slotsAll, slotsOfItems, blocksOfSlots] at hb
  | cons y xs ih =>
    rw [instancesAll, slotsAll, blocksOfSlots_slotsOfItems_cons, List.map_append, blocksOfSlots_append] at hb
    simp only [List.mem_append] at hb
    have hor : b ∈ y.frames ∨ b ∈ (instancesAll xs).map Instance.block ∨
        b ∈ blocksOfSlots (slotsAll xs) ∨ b ∈ blocksOfSlots (slotsOfItems xs) := by
      rw [frames, List.mem_append]
      tauto
    rcases hor with hy | hxs
    · exact ⟨y, List.mem_cons_self .., hy⟩
    · obtain ⟨z, hz, hb⟩ := ih hxs
      exact ⟨z, List.mem_cons_of_mem _ hz, hb⟩

theorem exists_shows (h : ShowsAll xs ps) (hy : y ∈ xs) : ∃ p ∈ ps, y.Shows p := by
  induction xs generalizing ps with
  | nil => cases hy
  | cons x xs ih =>
    cases ps with
    | nil => exact False.elim h
    | cons p ps =>
      rcases List.mem_cons.1 hy with rfl | hy
      · exact ⟨p, List.mem_cons_self .., h.1⟩
      · obtain ⟨q, hq, hyq⟩ := ih h.2 hy
        exact ⟨q, List.mem_cons_of_mem _ hq, hyq⟩

theorem nodup_nodes_of_mem (h : (nodesAll xs).Nodup) (hy : y ∈ xs) : y.nodes.Nodup := by
  obtain ⟨l, r, rfl⟩ := List.append_of_mem hy
  rw [nodesAll_append, nodesAll, List.nodup_append, List.nodup_append] at h
  exact h.2.1.1

/-- The topmost nodes of each instance come from its template, and they are on show. -/
theorem frames_on_show (x : Exhibit) (p : Plan) (hx : x.Shows p) (hproper : x.Proper)
    (hnd : x.nodes.Nodup) {b : Block} (hb : b ∈ x.frames) {n : NodeId} (hn : n ∈ b.nodes) :
    n ∈ x.fixtures ∧ Plant.Beside n n x.plants := by
  have hall : (∀ x : Exhibit, ∀ p : Plan, x.Shows p → x.Proper → x.nodes.Nodup → b ∈ x.frames →
      n ∈ x.fixtures ∧ Plant.Beside n n x.plants) ∧ ∀ xs : List Exhibit, ∀ x ∈ xs, ∀ p : Plan,
      x.Shows p → x.Proper → x.nodes.Nodup → b ∈ x.frames →
        n ∈ x.fixtures ∧ Plant.Beside n n x.plants := by
    refine induct ?_ ?_ ?_ ?_ ?_
    · intro v p _ _ _ hb
      cases hb
    · intro i roots spots xs ih p hx hproper hnd hb
      cases p with
      | leaf | list => exact False.elim hx
      | use space template compiled ps =>
        obtain ⟨-, -, htops, -, -, -, -, hshows⟩ := hx
        rw [fixtures, List.mem_append]
        rw [frames, Exhibit.instances, Exhibit.slots, List.map_cons, List.cons_append, List.mem_cons] at hb
        rcases hb with rfl | hb
        · rw [htops] at hn
          have hmem : n ∈ (Exhibit.use i roots spots xs).plants.map Plant.id := by
            rw [Exhibit.plants]
            exact Trimming.mem_map_id_graftAll_put hn
          exact ⟨.inl (Document.mem_idsAll_of_mem_map hn), _, .self _, hmem, hmem⟩
        · rw [List.mem_append] at hb
          obtain ⟨y, hy, hb⟩ := exists_of_mem_blocks (hb.imp_right .inl)
          obtain ⟨q, -, hyq⟩ := exists_shows hshows hy
          have hseated : Exhibit.use i roots spots xs = seated i roots (i.bindings.zip spots) xs :=
            use_eq_seated hproper.1
          rw [hseated] at hproper hnd ⊢
          have hparts := parts_seated hnd
          obtain ⟨hfix, hbeside⟩ := ih y hy q hyq (properAll_iff.1 (proper_seated.1 hproper).2 y hy)
            (nodup_nodes_of_mem hparts.nodup_nested hy) hb
          refine ⟨.inr (fixtures_subset hy hfix), ?_⟩
          obtain ⟨l, r, rfl⟩ := List.append_of_mem hy
          exact beside_hole hproper hnd hbeside
    · intro xs ih p hx hproper hnd hb
      cases p with
      | leaf | use => exact False.elim hx
      | list ps =>
        rw [frames, Exhibit.instances, Exhibit.slots, List.map_nil, List.nil_append] at hb
        obtain ⟨y, hy, hb⟩ := exists_of_mem_blocks (.inr (.inr hb))
        obtain ⟨q, -, hyq⟩ := exists_shows (show ShowsAll xs ps from hx) hy
        obtain ⟨hfix, hbeside⟩ := ih y hy q hyq (properAll_iff.1 hproper y hy)
          (nodup_nodes_of_mem hnd hy) hb
        refine ⟨fixtures_subset hy hfix, hbeside.mono (.self _) ?_⟩
        obtain ⟨l, r, rfl⟩ := List.append_of_mem hy
        rw [Exhibit.plants, plantsAll_append, plantsAll, List.flatten_append, List.flatten_cons]
        exact fun q hq => List.mem_append_right _ (List.mem_append_left _ hq)
    · intro x hx
      cases hx
    · intro x xs ihx ihxs
      exact List.forall_mem_cons.2 ⟨ihx, ihxs⟩
  exact hall.1 x p hx hproper hnd hb

end Exhibit

open Exhibit

/-- A container that displays an exhibit exposes it, with all nodes from the content of its templates
fixed. -/
theorem Renderer.Displays.exposes {r : Renderer} {container : NodeId} {x : Exhibit} {p : Plan}
    (h : r.Displays container x) (hx : x.Shows p) (hp : p.Fits) :
    r.document.Exposes container x.fixtures .none x := by
  have hproper := proper_of_shows.1 x p hx hp
  have hperm := nodes_perm.1 x hproper
  have hnd := (List.nodup_cons.1 h.nodup).2
  refine ⟨⟨x.plants, by simpa [Stock.none, piecesAll, entriesAll] using h.ready, .refl _⟩, hproper,
    by simpa [Stock.none, nodesAll] using h.nodup, by simpa [Stock.none, nodesAll] using h.has,
    (fun y hy => by cases hy), (fun f hf => by cases hf), fun e he n hn => ?_, fun n hn => ?_⟩
  · rw [hperm.nodup_iff, List.nodup_append] at hnd
    have hextra : n ∉ extras e := fun hne =>
      hnd.2.2 n hn n (List.mem_flatMap.2 ⟨e, he, hne⟩) rfl
    rwa [extras, List.mem_append, not_or] at hextra
  · exact h.has n (hperm.mem_iff.2 (List.mem_append_left _ hn))

end LiveMarkup
