import LiveMarkup.Proofs.Document.Growing
/-!
# What is added

Making nodes and attributes is not counted as a change, so it must not be one: all that was there is as it was,
and what is new is linked to nothing but what is new (`Document.Adds`). The second half is what allows a node to
be taken out of its fragment again without a change to anything else (`Document.Adds.blockOfOwn`).
-/

namespace LiveMarkup.Document

open Markup (Tag Tree)

variable {base d : Document} {n p : NodeId} {a : AttributeId}

/-- A document has come from another one by additions only. -/
structure Adds (base d : Document) : Prop where
  grows : base.Grows d
  mutations : d.mutations = base.mutations
  node : ∀ n, base.Has n → d.node n = base.node n
  attr : ∀ a, base.HasAttribute a → d.attr a = base.attr a
  parent : ∀ n p, ¬ base.Has n → d.parent? n = some p → ¬ base.Has p
  child : ∀ n c, ¬ base.Has n → c ∈ d.children n → ¬ base.Has c

namespace Adds

theorem refl (d : Document) : d.Adds d where
  grows := .refl d
  mutations := rfl
  node _ _ := rfl
  attr _ _ := rfl
  parent _ _ hn hp := absurd (has_of_parent? hp) hn
  child _ _ hn hc := absurd (has_of_mem_children hc) hn

variable (h : base.Adds d)

include h

theorem new : ¬ base.Has d.next := fun hn =>
  not_has_next (h.grows.has hn)

/-! ### Nodes -/

theorem create (kind : NodeKind) (data : String) : base.Adds (d.create kind data).2 where
  grows := h.grows.trans (grows_create ..)
  mutations := h.mutations
  node n hn := by
    rw [node_create, if_neg (h.grows.has hn).ne_next]
    exact h.node n hn
  attr := h.attr
  parent n p hn hp := h.parent n p hn (parent?_create ▸ hp)
  child n c hn hc := h.child n c hn (children_create ▸ hc)

/-- A new node is changed, with new nodes for its parent and its children. -/
theorem update (hn : ¬ base.Has n) {f : Node → Node}
    (hparent : ∀ p, (f (d.node n)).parent = some p → ¬ base.Has p)
    (hchild : ∀ c ∈ (f (d.node n)).children, ¬ base.Has c) : base.Adds (d.update n f) where
  grows := ⟨Nat.le_trans h.grows.nodes (Nat.le_of_eq (size_nodes_update ..).symm), h.grows.attributes, h.grows.groups⟩
  mutations := h.mutations
  node m hm := by
    have hne : m ≠ n := fun he => hn (he ▸ hm)
    rw [node_update, if_neg fun he => hne he.1]
    exact h.node m hm
  attr := h.attr
  parent m p hm hp := by
    rw [parent?, node_update] at hp
    split at hp
    · rename_i he
      rw [he.1] at hp
      exact hparent p hp
    · exact h.parent m p hm hp
  child m c hm hc := by
    rw [children, node_update] at hc
    split at hc
    · rename_i he
      rw [he.1] at hc
      exact hchild c hc
    · exact h.child m c hm hc

theorem link (hp : ¬ base.Has p) (hn : ¬ base.Has n) : base.Adds (d.link p n) := by
  have hrow : base.Adds (d.update p fun r => { r with children := r.children ++ [n] }) := by
    refine h.update hp (fun q => h.parent p q hp) fun c hc => ?_
    rcases List.mem_append.1 hc with hold | hnew
    · exact h.child p c hp hold
    · rwa [List.mem_singleton.1 hnew]
  refine hrow.update hn (fun q hq => ?_) fun c => hrow.child n c hn
  rwa [← Option.some.inj hq]

theorem detach (hn : ¬ base.Has n) : base.Adds (d.detach n) := by
  unfold Document.detach
  split
  · exact h
  · rename_i p hparent
    have hp := h.parent n p hn hparent
    have hrow : base.Adds (d.update p fun r => { r with children := r.children.filter (· != n) }) :=
      h.update hp (fun q => h.parent p q hp) fun c hc => h.child p c hp (List.mem_of_mem_filter hc)
    exact hrow.update hn (fun q hq => by cases hq) fun c => hrow.child n c hn

/-! ### Attributes -/

theorem createAttribute (name : String) : base.Adds (d.createAttribute name).2 where
  grows := h.grows.trans (evolves_createAttribute d name : d.Evolves _ [] []).grows
  mutations := h.mutations
  node := h.node
  attr a ha := by
    rw [attr_createAttribute, if_neg (h.grows.hasAttribute ha).ne_next]
    exact h.attr a ha
  parent := h.parent
  child := h.child

theorem giveAttribute (hn : ¬ base.Has n) (name value : String) :
    base.Adds (d.giveAttribute n name value) := by
  have hpushed : base.Adds { d with attributes := d.attributes.push ⟨name, value, some n⟩ } := by
    refine ⟨h.grows.trans ⟨Nat.le_refl _, ?_, Nat.le_refl _⟩, h.mutations, h.node, fun a ha => ?_, h.parent,
      h.child⟩
    · simp
    · have hne := (h.grows.hasAttribute ha).ne_next
      have hgiven := attr_giveAttribute d n name value a
      rw [if_neg hne] at hgiven
      exact hgiven.trans (h.attr a ha)
  exact hpushed.update hn (fun p => hpushed.parent n p hn) fun c => hpushed.child n c hn

theorem giveAttributes (hn : ¬ base.Has n) (pairs : List (String × String)) :
    base.Adds (pairs.foldl (fun d a => d.giveAttribute n a.1 a.2) d) := by
  induction pairs generalizing d with
  | nil => exact h
  | cons a rest ih => exact ih (h.giveAttribute hn a.1 a.2)

/-! ### Content -/

theorem createElement (tag : Tag) : base.Adds (d.createElement tag).2 :=
  (h.create (.element tag.name tag.space) "").giveAttributes h.new tag.attributes

omit h in
theorem addTrees :
    (∀ (t : Tree) (p : NodeId) (d : Document), base.Adds d → ¬ base.Has p → base.Adds (addTree p d t)) ∧
      ∀ (ts : List Tree) (p : NodeId) (d : Document), base.Adds d → ¬ base.Has p →
        base.Adds (addContent p d ts) := by
  refine Tree.induct ?_ ?_ ?_ ?_ ?_
  · intro tag children ih p d h hp
    rw [addTree]
    exact ih _ _ ((h.createElement tag).link hp h.new) h.new
  · intro data p d h hp
    rw [addTree]
    exact (h.create .text data).link hp h.new
  · intro data p d h hp
    rw [addTree]
    exact (h.create .comment data).link hp h.new
  · intro p d h _
    rw [addContent]
    exact h
  · intro t ts iht ihts p d h hp
    rw [addContent]
    exact ihts p _ (iht p d h hp) hp

theorem createFragment (content : List Tree) : base.Adds (d.createFragment content).2 :=
  addTrees.2 content _ _ (h.create .fragment "") h.new

theorem copy (n : NodeId) : base.Adds (d.copy n).2 :=
  (h.create (d.kind n) (d.node n).data).giveAttributes h.new (d.attributePairs n)

omit h in
theorem copyLevels (fuel : Nat) {d : Document} (h : base.Adds d) (n : NodeId) :
    ¬ base.Has (d.copyLevels fuel n).1 ∧ base.Adds (d.copyLevels fuel n).2 := by
  induction fuel generalizing d n with
  | zero => exact ⟨h.new, h.copy n⟩
  | succ fuel ih =>
    refine ⟨h.new, ?_⟩
    have hchildren (nodes : List NodeId) {d' : Document} (h' : base.Adds d') :
        base.Adds (nodes.foldl (fun d' c => (d'.copyLevels fuel c).2.link (d.copy n).1 (d'.copyLevels fuel c).1) d') := by
      induction nodes generalizing d' with
      | nil => exact h'
      | cons c rest ihrest =>
        obtain ⟨hnew, hadds⟩ := ih h' c
        exact ihrest (hadds.link h.new hnew)
    exact hchildren (d.children n) (h.copy n)

theorem copyTree (n : NodeId) : base.Adds (d.copyTree n).2 :=
  (h.copyLevels _ n).2

/-- What stands alone in a new fragment is taken out of it. -/
theorem blockOfOwn (hn : ¬ base.Has n) : base.Adds (d.blockOfOwn n).2 := by
  have hgrouped : base.Adds { d with groups := d.groups + 1 } :=
    ⟨⟨h.grows.nodes, h.grows.attributes, Nat.le_succ_of_le h.grows.groups⟩, h.mutations, h.node, h.attr, h.parent,
      h.child⟩
  unfold Document.blockOfOwn blockOf
  split
  · rename_i only hrow
    exact h.detach (h.child n only hn (hrow ▸ List.mem_singleton_self only))
  · exact hgrouped

end Adds

end LiveMarkup.Document
