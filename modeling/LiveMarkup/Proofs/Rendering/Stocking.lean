import LiveMarkup.Proofs.Rendering.Presentation
import LiveMarkup.Proofs.Rendering.Refilling
/-!
# What is made beside what is on show

While an exhibit is in place, others can be made that stand nowhere yet: they go into the stock
(`Document.Exposes.stocked`). What an instance has shown can be given up without moving anything, and then it
is nodes and nothing else (`Exhibit.idle`, `Document.Exposes.give_up`). A row is replaced in this way: a new
instance is made, the bindings of the old one are given up, and the old nodes stand where they are until the
blocks in front of the placeholder are reconciled.
-/

namespace LiveMarkup

open Exhibit

namespace Exhibit

variable {x y : Exhibit} {xs : List Exhibit} {i : Instance} {roots : List Plant} {spots : List Spot}

theorem piecesAll_append (xs ys : List Exhibit) : piecesAll (xs ++ ys) = piecesAll xs ++ piecesAll ys := by
  induction xs with
  | nil => rfl
  | cons x xs ih => rw [List.cons_append, piecesAll, ih, piecesAll, List.append_assoc]

/-- An exhibit without its bindings: it comes to the same nodes, but nothing is shown in them any more. -/
def idle : Exhibit → Exhibit
  | use i roots spots holes => use { i with bindings := [] } (use i roots spots holes).plants [] []
  | x => x

theorem plants_idle (x : Exhibit) : x.idle.plants = x.plants := by
  cases x with
  | leaf | list => rfl
  | use i roots spots holes =>
    rw [idle, plants, Spot.trimmings_nil, Trimming.graftAll_put_none]

theorem pieces_idle (i : Instance) (roots : List Plant) (spots : List Spot) (holes : List Exhibit) :
    (use i roots spots holes).idle.pieces = (use i roots spots holes).pieces := by
  have hplants := plants_idle (use i roots spots holes)
  rw [idle, plants] at hplants
  rw [idle, pieces, hplants, pieces, plants]

theorem entries_idle (i : Instance) (roots : List Plant) (spots : List Spot) (holes : List Exhibit) :
    (use i roots spots holes).idle.entries = [] := by
  rw [idle, entries, entriesAll, List.zip_nil_right, List.append_nil]

theorem nodes_idle (i : Instance) (roots : List Plant) (spots : List Spot) (holes : List Exhibit) :
    (use i roots spots holes).idle.nodes = Plant.idsAll (use i roots spots holes).plants := by
  rw [idle, nodes, nodesAll]
  simp

theorem proper_idle (i : Instance) (roots : List Plant) (spots : List Spot) (holes : List Exhibit) :
    (use i roots spots holes).idle.Proper := by
  refine ⟨rfl, ⟨⟨Plant.trees (use i roots spots holes).plants, []⟩, ?_, ?_, rfl, .nil⟩, trivial⟩
  · exact ⟨fun h hh => (by cases hh), .nil⟩
  · exact ⟨fun _ _ h hh => (by cases hh), fun h hh => (by cases hh), fun h hh => (by cases hh), .nil,
      fun h hh => (by cases hh)⟩

end Exhibit

theorem Stock.held_append_subset {xs ys : List Exhibit} {emptied nodes : List NodeId} :
    Stock.held ⟨xs ++ ys, emptied⟩ ⊆ nodes ↔
      Stock.held ⟨xs, emptied⟩ ⊆ nodes ∧ Stock.held ⟨ys, []⟩ ⊆ nodes := by
  simp only [Stock.held_subset, piecesAll_append, entriesAll_append, List.forall_mem_append,
    List.nil_subset, and_true]
  tauto

theorem realizeAll_leaves (custody : Custody) (level : Level) (vs : List Value) :
    realizeAll custody level (vs.map .leaf) = ⟨vs, [], level⟩ := by
  induction vs generalizing custody with
  | nil => rfl
  | cons v vs ih => rw [List.map_cons, realizeAll, Plan.realize, ih, List.nil_append]

namespace Document

variable {d d' : Document} {c : NodeId} {fixed nodes : List NodeId} {stock : Stock} {x x' y : Exhibit}
  {root : Option NodeId} {ps : List Plant} {pieces : List (Block × List Plant)}
  {entries entries' : List (Binding × Spot)}

/-- Bindings that are given up need nothing. -/
theorem Ready.forget (g : d.Ready root ps pieces entries) (h : entries'.Sublist entries) :
    d.Ready root ps pieces entries' where
  sound := g.sound
  bears := g.bears
  rooted := g.rooted
  top := g.top
  loose := g.loose
  apart := g.apart
  aside := g.aside
  supports e he := g.supports e (h.subset he)
  separate := g.separate.sublist h
  hidden c n hc := g.hidden c n (h.subset hc)

namespace Exposes

/-- An exhibit is followed by one that comes to the same nodes with fewer bindings. -/
theorem give_up (g : d.Exposes c fixed stock x) (hproper : x'.Proper) (hplants : x'.plants = x.plants)
    (hentries : x'.entries.Sublist x.entries) (hsub : x'.nodes ⊆ x.nodes) (hnd : x'.nodes.Nodup) :
    d.Exposes c fixed stock x' where
  ready := by
    obtain ⟨ps, hready, halike⟩ := g.ready
    exact ⟨ps, hready.forget (hentries.append_right _), hplants ▸ halike⟩
  proper := hproper
  nodup := by
    have h := g.nodup
    rw [List.nodup_cons, List.nodup_append, List.mem_append] at h ⊢
    obtain ⟨hc, -, hstock, hapart⟩ := h
    exact ⟨fun hn => hc (hn.imp_left (hsub ·)), hnd, hstock, fun n hn => hapart n (hsub hn)⟩
  has n hn := g.has n ((List.mem_append.1 hn).elim (fun hn => List.mem_append_left _ (hsub hn))
    (List.mem_append_right _))
  aside z hz n hw hn := g.aside z hz n hw (hsub hn)
  emptied := g.emptied
  free e he := g.free e (hentries.subset he)
  has_fixed := g.has_fixed

/-- Something new is made beside what is on show. -/
theorem stocked (g : d.Exposes c fixed stock x) (h : Presents d d' nodes y.pieces y.entries)
    (hnovel : d.Novel d' y.nodes) (hc : c ∈ nodes) (hx : ∀ e ∈ x.entries, e.1.held ⊆ nodes)
    (hstock : stock.held ⊆ nodes) : d'.Exposes c fixed ⟨stock.exhibits ++ [y], stock.emptied⟩ x := by
  obtain ⟨ps, hready, halike⟩ := g.ready
  obtain ⟨⟨hpieces, hentries⟩, hemptied⟩ := stock.held_subset.1 hstock
  have hkept := hready.keeps h.keeps h.ready.sound (fun p hp => Option.some.inj hp ▸ hc)
    (fun hnone => by cases hnone) hpieces fun e he => (List.mem_append.1 he).elim (hx e) (hentries e)
  refine ⟨⟨ps, (hready.append hkept h.ready h.fresh).perm ?_ ?_, halike⟩, g.proper, ?_, fun n hn => ?_,
    fun z hz n hw hn => ?_, fun f hf => ?_, g.free, fun n hn => h.keeps.has (g.has_fixed n hn)⟩
  · rw [piecesAll_append, piecesAll, piecesAll, List.append_nil]
    exact List.perm_append_comm
  · rw [entriesAll_append, entriesAll, entriesAll, List.append_nil]
    exact List.perm_append_comm.trans (.of_eq (List.append_assoc ..))
  · rw [nodesAll_append, nodesAll, nodesAll, List.append_nil, ← List.append_assoc, ← List.cons_append]
    refine List.nodup_append.2 ⟨g.nodup, hnovel.nodup, fun n hn m hm he => (hnovel.new m hm).1 (he ▸ ?_)⟩
    rcases List.mem_cons.1 hn with rfl | hn
    · exact g.has_root
    · exact g.has n hn
  · rw [nodesAll_append, nodesAll, nodesAll, List.append_nil, ← List.append_assoc, List.mem_append] at hn
    exact hn.elim (fun hn => h.keeps.has (g.has n hn)) fun hn => (hnovel.new n hn).2
  · rw [piecesAll_append, piecesAll, piecesAll, List.append_nil, List.mem_append] at hz
    exact hz.elim (fun hz => g.aside z hz n hw hn) fun hz => h.fresh.nodes z hz n hw (g.has_self n hn)
  · obtain ⟨hhas, hfragment, hempty⟩ := g.emptied f hf
    have hsame := h.keeps.same f hhas (.root (hemptied hf))
    refine ⟨h.keeps.has hhas, ?_, hsame.children.trans hempty⟩
    rw [isFragment, h.keeps.kind f hhas]
    exact hfragment

end Exposes

end Document

end LiveMarkup
