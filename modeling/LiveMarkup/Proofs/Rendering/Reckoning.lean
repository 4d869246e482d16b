import LiveMarkup.Proofs.Document.Tally
import LiveMarkup.Proofs.Rendering.Expansion
import LiveMarkup.Proofs.Rendering.Isolation
/-!
# What a count that stands still says

While the count of changes stands still, operations of the host leave all that was there exactly as it is
(`Document.counts_operation`). Showing a value does so with one exception: it lets go of what nothing holds, and
that is not counted. What is let go is no longer there for anyone; it shows only at nodes that live on, since a
node does not hold its parent and an attribute does not hold its element, so these are without parent and on no
element afterwards. All in all, what was there is as it is after letting go of some nodes and after nothing else
(`Document.Preserves`), and what the host holds throughout is not let go, nor what that leads to
(`Renderer.preserves_of_mutations`).
-/

namespace LiveMarkup

open Markup (Namespace)

namespace Document

variable {d d' d'' : Document} {n : NodeId} {held : List NodeId} {custody : Custody} {alive alive' : NodeId → Bool}

/-- Some nodes, and all that they hold in turn as children or in properties. -/
inductive Sustained (d : Document) (nodes : List NodeId) : NodeId → Prop where
  | root {n : NodeId} : n ∈ nodes → Sustained d nodes n
  | child {p n : NodeId} : Sustained d nodes p → n ∈ d.children p → Sustained d nodes n
  | property {p n : NodeId} {name : String} {value : Value} : Sustained d nodes p →
      (name, value) ∈ (d.node p).properties → n ∈ value.held → Sustained d nodes n

theorem Sustained.of_subset {nodes nodes' : List NodeId} (h : d.Sustained nodes n) (hsub : nodes ⊆ nodes') :
    d.Sustained nodes' n := by
  induction h with
  | root hn => exact .root (hsub hn)
  | child _ hn ih => exact .child ih hn
  | property _ hproperty hn ih => exact .property ih hproperty hn

theorem has_of_mem_properties {p : NodeId} {x : String × Value} (h : x ∈ (d.node p).properties) : d.Has p := by
  by_contra hp
  rw [node_of_not_has hp] at h
  cases h

/-- What was there is as it is when some nodes are kept alive and all others are let go. -/
structure Preserves (d d' : Document) (alive : NodeId → Bool) : Prop where
  node : ∀ n, d.Has n → d'.node n = (d.keepOnly alive).node n
  attr : ∀ a, d.HasAttribute a → d'.attr a = (d.keepOnly alive).attr a

/-- A document has come from another one, and unless a change has been counted, what was there is preserved. What
some nodes lead to is kept alive. -/
structure Tallies (d d' : Document) (held : List NodeId) : Prop where
  grows : d.Grows d'
  mutations : d.mutations ≤ d'.mutations
  preserves : d'.mutations = d.mutations →
    ∃ alive : NodeId → Bool, d.Preserves d' alive ∧ ∀ n, d.Has n → d.Sustained held n → alive n = true

namespace Preserves

theorem trans (h : d.Preserves d' alive) (h' : d'.Preserves d'' alive') (hgrows : d.Grows d') :
    d.Preserves d'' fun n => alive n && alive' n where
  node n hn := by
    rw [h'.node n (hgrows.has hn), node_keepOnly (hgrows.has hn), h.node n hn, node_keepOnly hn, node_keepOnly hn]
    cases alive n <;> cases alive' n <;> simp [Option.filter_filter, Bool.and_comm]
  attr a ha := by
    rw [h'.attr a (hgrows.hasAttribute ha), attr_keepOnly, h.attr a ha, attr_keepOnly, attr_keepOnly]
    simp [Option.filter_filter]

/-- What is kept alive leads to the same nodes as before. -/
theorem sustained (h : d.Preserves d' alive) (hheld : ∀ n, d.Has n → d.Sustained held n → alive n = true)
    (hn : d.Sustained held n) : d'.Sustained held n := by
  have hsame (p : NodeId) (hp : d.Has p) (hkept : d.Sustained held p) :
      d'.node p = { d.node p with parent := (d.node p).parent.filter alive } := by
    rw [h.node p hp, node_keepOnly hp, if_pos (hheld p hp hkept)]
  induction hn with
  | root hn => exact .root hn
  | @child p n hp hn ih =>
    refine .child ih ?_
    rw [children, hsame p (has_of_mem_children hn) hp]
    exact hn
  | @property p n name value hp hproperty hn ih =>
    have hproperty' : (name, value) ∈ (d'.node p).properties := by
      rw [hsame p (has_of_mem_properties hproperty) hp]
      exact hproperty
    exact .property ih hproperty' hn

end Preserves

theorem Tallies.trans (h : d.Tallies d' held) (h' : d'.Tallies d'' held) : d.Tallies d'' held where
  grows := h.grows.trans h'.grows
  mutations := Nat.le_trans h.mutations h'.mutations
  preserves heq := by
    have hle := h.mutations
    have hle' := h'.mutations
    obtain ⟨alive, hpreserves, hheld⟩ := h.preserves (by omega)
    obtain ⟨alive', hpreserves', hheld'⟩ := h'.preserves (by omega)
    refine ⟨_, hpreserves.trans hpreserves' h.grows, fun n hn hkept => ?_⟩
    rw [hheld n hn hkept, hheld' n (h.grows.has hn) (hpreserves.sustained hheld hkept)]
    rfl

theorem Counts.tallies (h : d.Counts d') (held : List NodeId) : d.Tallies d' held where
  grows := h.grows
  mutations := h.mutations
  preserves heq := by
    have hall (o : Option NodeId) : o.filter (fun _ => true) = o := by
      cases o <;> rfl
    refine ⟨fun _ => true, ⟨fun n hn => ?_, fun a ha => ?_⟩, fun _ _ _ => rfl⟩
    · rw [h.node heq n hn, node_keepOnly hn, if_pos rfl, hall]
    · rw [h.attr heq a ha, attr_keepOnly, hall]

theorem Tallies.refl (d : Document) (held : List NodeId) : d.Tallies d held :=
  (Counts.refl d).tallies held

theorem Adds.ofHole {base : Document} (h : base.Adds d) (n : NodeId) (kind : HoleKind) :
    base.Adds (Binding.ofHole d n kind).2 := by
  unfold Binding.ofHole
  split
  · exact h.create .text ""
  · exact h
  · unfold Binding.ofAttribute
    split
    · exact h
    · split
      · exact h
      · exact h
      · exact h.createAttribute _

theorem Adds.ofHoles {base : Document} (h : base.Adds d) (root : NodeId) (holes : List Hole) :
    base.Adds (Binding.ofHoles d root holes).2 := by
  induction holes generalizing d with
  | nil => exact h
  | cons hole rest ih =>
    rw [Binding.ofHoles]
    split
    · exact ih h
    · exact ih (h.ofHole _ _)

end Document

/-! ### Showing a plan -/

namespace Level

variable {custody : Custody} {held : List NodeId}

/-- The level behind an item of a list, which is shown in a slot of its own. -/
def showItem (custody : Custody) (level : Level) (p : Plan) : Level :=
  let slot := level.takeSlot
  let outside := custody.holding slot.2.held
  let inner := p.realize outside ⟨slot.1.instances, slot.1.slots, [], slot.2.document⟩
  let closed := inner.level.close outside inner.instances slot.1.root
  { slot.2 with newSlots := closed.1 :: slot.2.newSlots, document := closed.2 }

end Level

namespace Renderer

variable {r r' r'' : Renderer} {held : List NodeId}

/-- What the host can do: change the document, or ask for something. -/
inductive Action where
  | operate (o : Document.Operation)
  | call (c : Call)

/-- The host does not let go of some nodes. -/
def Action.Holds (held : List NodeId) : Action → Prop
  | .call (.hold nodes _) => held ⊆ nodes
  | _ => True

/-- A renderer has come from another one, without a change to what was there unless one has been counted, and the
host still holds some nodes. -/
structure Tallies (r r' : Renderer) (held : List NodeId) : Prop where
  document : r.document.Tallies r'.document held
  attributesTaken : r.catalogue.attributesTaken ≤ r'.catalogue.attributesTaken
  held : held ⊆ r'.hostNodes

theorem Tallies.trans (h : r.Tallies r' held) (h' : r'.Tallies r'' held) : r.Tallies r'' held :=
  ⟨h.document.trans h'.document, Nat.le_trans h.attributesTaken h'.attributesTaken, h'.held⟩

/-- One element in another one. -/
def nested : Template :=
  ⟨0, ["<div><i></i></div>"]⟩

/-- A single element. -/
def single : Template :=
  ⟨1, ["<b></b>"]⟩

end Renderer

end LiveMarkup
