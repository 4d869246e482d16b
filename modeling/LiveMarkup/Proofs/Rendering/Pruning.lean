import LiveMarkup.Proofs.Rendering.Continuity
import LiveMarkup.Proofs.Rendering.Meeting
import Mathlib.Data.List.Flatten
/-!
# Giving up what is not found again

Before something else is shown in a container, some of what is on show there can be given up in advance
(`Exhibit.Pruned`): the nodes stay where they are, but nothing is brought up to date in them any more
(`Document.Carries.pruned`).
-/

namespace LiveMarkup

open Exhibit

namespace Exhibit

variable {x y : Exhibit} {xs ys : List Exhibit} {p : Plan} {i : Instance} {roots : List Plant}
  {es : List (Binding × Spot)}

/-- What is on show of a plan spans all that it comes to. -/
theorem spans_of_shows (hx : x.Shows p) (hfits : p.Fits) (hp : p.AllHeaded) (hnd : (Plant.idsAll x.plants).Nodup) :
    ∀ y ∈ x.pieces, y.1.Spans (y.2.map Plant.id) := by
  have huse : ∀ {x : Exhibit} {space template compiled ps}, x.Shows (.use space template compiled ps) →
      compiled.Headed → (Plant.idsAll x.plants).Nodup → ∀ y ∈ x.pieces, y.1.Spans (y.2.map Plant.id) := by
    intro x space template compiled ps hx hheaded hnd
    cases x with
    | leaf | list => exact False.elim hx
    | use i roots spots holes =>
      rw [pieces, List.forall_mem_singleton]
      exact spans_use hx hheaded (hnd.sublist (Plant.sublist_idsAll _))
  cases hfits with
  | leaf =>
    rw [eq_leaf_of_shows hx]
    exact fun y hy => by cases hy
  | use => exact huse hx hp.2.1 hnd
  | @list items _ huses =>
    cases x with
    | leaf | use => exact False.elim hx
    | list xs =>
      intro y hy
      rw [pieces, piecesAll_eq, List.mem_flatMap] at hy
      obtain ⟨z, hz, hy⟩ := hy
      obtain ⟨q, hq, hzq⟩ := exists_shows hx hz
      obtain ⟨space, template, compiled, holes, rfl⟩ := huses q hq
      refine huse hzq ((plansHeaded_iff.1 hp _ hq).2.1) ?_ y hy
      obtain ⟨l, r, rfl⟩ := List.append_of_mem hz
      rw [plants, plantsAll_append, plantsAll, List.flatten_append, List.flatten_cons, Plant.idsAll_append,
        Plant.idsAll_append] at hnd
      exact hnd.sublist ((List.sublist_append_left ..).trans (List.sublist_append_right ..))
  | texts hv h =>
    rw [pieces_of_primitive hx (.texts hv h) rfl]
    exact fun y hy => by cases hy

/-! ### Pruning -/

/-- An exhibit of which all bindings are given up. -/
def bare : Exhibit → Exhibit
  | .list items => .list (items.map idle)
  | x => x.idle

/-- Some of an exhibit has been given up: it comes to the same nodes and blocks as before, with fewer bindings. -/
structure Pruned (x y : Exhibit) : Prop where
  proper : x.Proper
  pieces : x.pieces = y.pieces
  plants : x.plants = y.plants
  entries : x.entries.Sublist y.entries
  nodes : x.nodes.Subperm y.nodes
  leaf : ∀ v, y = .leaf v → x = .leaf v

theorem pruned_leaf (v : Value) : Pruned (.leaf v) (.leaf v) :=
  ⟨trivial, rfl, rfl, .refl _, .refl _, fun _ h => h⟩

/-- A use can be given up. -/
theorem pruned_idle {spots : List Spot} {holes : List Exhibit} (hproper : (use i roots spots holes).Proper)
    (hnd : (Plant.idsAll (use i roots spots holes).plants).Nodup) :
    Pruned (use i roots spots holes).idle (use i roots spots holes) where
  proper := proper_idle ..
  pieces := pieces_idle ..
  plants := plants_idle _
  entries := by
    rw [entries_idle]
    exact List.nil_sublist _
  nodes := by
    rw [nodes_idle]
    exact hnd.subperm (Proper.ids.1 _ hproper)
  leaf := fun _ h => by cases h

theorem prunedAll_parts (h : List.Forall₂ Pruned xs ys) : ProperAll xs ∧ piecesAll xs = piecesAll ys ∧
    plantsAll xs = plantsAll ys ∧ (entriesAll xs).Sublist (entriesAll ys) ∧ (nodesAll xs).Subperm (nodesAll ys) := by
  induction h with
  | nil => exact ⟨trivial, rfl, rfl, .refl _, .refl _⟩
  | cons h _ ih =>
    obtain ⟨hproper, hpieces, hplants, hentries, hnodes⟩ := ih
    simp only [ProperAll, piecesAll, plantsAll, entriesAll, nodesAll, h.pieces, h.plants, hpieces, hplants]
    exact ⟨⟨h.proper, hproper⟩, trivial, trivial, h.entries.append hentries, h.nodes.append hnodes⟩

theorem Pruned.list (h : List.Forall₂ Pruned xs ys) : Pruned (.list xs) (.list ys) := by
  obtain ⟨hproper, hpieces, hplants, hentries, hnodes⟩ := prunedAll_parts h
  exact ⟨hproper, hpieces, congrArg List.flatten hplants, hentries, hnodes, fun _ h => by cases h⟩

theorem Pruned.seated (h : List.Forall₂ Pruned xs ys) (hy : (seated i roots es ys).Proper) :
    Pruned (seated i roots es xs) (seated i roots es ys) := by
  obtain ⟨hproper, hpieces, hplants, hentries, hnodes⟩ := prunedAll_parts h
  have hadded : added es xs = added es ys := by rw [added, added, hplants]
  refine ⟨?_, ?_, ?_, ?_, ?_, fun _ h => by cases h⟩
  · obtain ⟨⟨c, hcoherent, hplain, htrees, hseats⟩, -⟩ := proper_seated.1 hy
    refine proper_seated.2 ⟨⟨c, hcoherent, hplain, htrees, ?_⟩, hproper⟩
    clear hy hadded hpieces hplants hentries hnodes hproper
    generalize c.holes = holes at hseats
    induction hseats generalizing xs with
    | nil =>
      cases h
      exact .nil
    | cons hat hmodest hleaf _ ih =>
      cases h with
      | cons h hs =>
        refine .cons hat hmodest (fun hne => ?_) (ih hs)
        obtain ⟨v, rfl⟩ := hleaf hne
        exact ⟨v, h.leaf v rfl⟩
  · rw [Exhibit.seated, Exhibit.seated, Exhibit.pieces, Exhibit.pieces, hplants]
  · rw [plants_seated, plants_seated, hadded]
  · rw [entries_seated, entries_seated]
    exact hentries.append_left _
  · rw [nodes_seated, nodes_seated]
    exact (((List.Subperm.refl _).append hnodes).append (List.Subperm.refl _))

/-- What is on show of anything but a list can be given up. -/
theorem pruned_idle_of_shows (hx : x.Shows p) (hp : ∀ items, p ≠ .list items) (hproper : x.Proper)
    (hnd : (Plant.idsAll x.plants).Nodup) : Pruned x.idle x ∧ x.idle.entries = [] := by
  cases x with
  | leaf v => exact ⟨pruned_leaf v, rfl⟩
  | use => exact ⟨pruned_idle hproper hnd, entries_idle ..⟩
  | list items =>
    cases p with
    | leaf | use => exact False.elim hx
    | list items => exact absurd rfl (hp items)

/-- All items of a list can be given up. -/
theorem pruned_items {ps : List Plan} (hxs : ShowsAll xs ps) (hps : ∀ p ∈ ps, ∀ items, p ≠ .list items)
    (hproper : ProperAll xs) (hnd : ∀ z ∈ xs, (Plant.idsAll z.plants).Nodup) :
    List.Forall₂ Pruned (xs.map idle) xs ∧ entriesAll (xs.map idle) = [] := by
  have hall : ∀ z ∈ xs, Pruned z.idle z ∧ z.idle.entries = [] := by
    intro z hz
    obtain ⟨q, hq, hzq⟩ := exists_shows hxs hz
    exact pruned_idle_of_shows hzq (hps q hq) (properAll_iff.1 hproper z hz) (hnd z hz)
  refine ⟨List.forall₂_map_left_iff.2 (List.forall₂_same.2 fun z hz => (hall z hz).1), ?_⟩
  rw [entriesAll_eq, List.flatMap_map, List.flatMap_eq_nil_iff]
  exact fun z hz => (hall z hz).2

/-- All that is on show of a plan can be given up. -/
theorem pruned_bare (hx : x.Shows p) (hfits : p.Fits) (hnd : (Plant.idsAll x.plants).Nodup) :
    Pruned x.bare x ∧ x.bare.entries = [] := by
  have hproper := proper_of_shows.1 x p hx hfits
  cases x with
  | leaf v => exact ⟨pruned_leaf v, rfl⟩
  | use => exact ⟨pruned_idle hproper hnd, entries_idle ..⟩
  | list xs =>
    cases p with
    | leaf | use => exact False.elim hx
    | list ps =>
      have hps : ∀ q ∈ ps, ∀ items, q ≠ .list items := by
        intro q hq items he
        generalize hp : Plan.list ps = p at hfits
        cases hfits with
        | leaf | use => cases hp
        | list _ huses =>
          cases hp
          obtain ⟨space, template, compiled, holes, rfl⟩ := huses q hq
          cases he
        | texts =>
          cases hp
          obtain ⟨v, -, rfl⟩ := List.mem_map.1 hq
          cases he
      obtain ⟨hpruned, hentries⟩ := pruned_items hx hps hproper fun z hz => by
        obtain ⟨l, r, rfl⟩ := List.append_of_mem hz
        rw [plants, plantsAll_append, plantsAll, List.flatten_append, List.flatten_cons, Plant.idsAll_append,
          Plant.idsAll_append] at hnd
        exact hnd.sublist ((List.sublist_append_left ..).trans (List.sublist_append_right ..))
      exact ⟨.list hpruned, hentries⟩

end Exhibit

/-- What is carried stays so when some of it is given up. -/
theorem Document.Carries.pruned {d : Document} {c : NodeId} {x y : Exhibit} (g : d.Carries c [] y)
    (h : Pruned x y) : d.Carries c [] x := by
  have hsub : (x.entries ++ entriesAll []).Sublist (y.entries ++ entriesAll []) := h.entries.append_right _
  obtain ⟨nodes, hperm, hnodes⟩ := h.nodes
  have g' := g.exposes.give_up h.proper h.plants h.entries (List.Subperm.subset h.nodes)
    (hperm.nodup_iff.1 (g.exposes.nodup_nodes.sublist hnodes))
  exact .intro g' (.refl _) (g.vacated.sublist (hsub.flatMap _)) (.refl _) g.spans g.clear

end LiveMarkup
