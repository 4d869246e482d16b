import LiveMarkup.Proofs.Document.Standing
import LiveMarkup.Rendering.Lifetime
/-!
# What letting go leaves alone

Letting go of what is not held never touches what some of the nodes that are held lead to by way of
their children (`Kept`). All else that is relied on later survives as well: a node without parent has
none afterwards, and an attribute that is on no element stays so. `Keeps` collects this, and it is what
every step of showing a plan does to the nodes that are in use.
-/

namespace LiveMarkup

/-! ### Marking -/

section Mark

variable {holds : NodeId → List NodeId} {alive : Array Bool} {todo : List NodeId} {n m : NodeId}

/-- A node is flagged. -/
def Flagged (alive : Array Bool) (n : NodeId) : Prop :=
  alive[n.index]? = some true

theorem flagged_set (h : n.index < alive.size) : Flagged (alive.setIfInBounds n.index true) n := by
  rw [Flagged, Array.getElem?_setIfInBounds_self_of_lt h]

theorem Flagged.set (h : Flagged alive n) (i : Nat) : Flagged (alive.setIfInBounds i true) n := by
  rw [Flagged, Array.getElem?_setIfInBounds]
  split
  · split
    · rfl
    · exact absurd (Array.getElem?_eq_some_iff.1 h).1 (by rename_i hi hlt; omega)
  · exact h

theorem Flagged.mark (h : Flagged alive n) : Flagged (mark holds alive todo) n := by
  fun_induction LiveMarkup.mark holds alive todo with
  | case1 => exact h
  | case2 alive m rest _ ih => exact ih (h.set m.index)
  | case3 alive m rest _ ih => exact ih h

/-- All nodes that are to be marked are. -/
theorem flagged_mark (hn : n ∈ todo) (h : n.index < alive.size) :
    Flagged (mark holds alive todo) n := by
  fun_induction mark holds alive todo with
  | case1 => cases hn
  | case2 alive m rest hm ih =>
    rcases List.mem_cons.1 hn with rfl | hn
    · exact (flagged_set h).mark
    · exact ih (List.mem_append_right _ hn) (by rwa [Array.size_setIfInBounds])
  | case3 alive m rest hm ih =>
    rcases List.mem_cons.1 hn with rfl | hn
    · refine Flagged.mark ?_
      have hget : alive[n.index]? = some alive[n.index] := Array.getElem?_eq_getElem h
      rw [Flagged, hget]
      cases hv : alive[n.index] with
      | true => rfl
      | false => exact absurd (by rw [hget, hv]) hm
    · exact ih hn h

/-- What a marked node holds is marked at the end, if it is marked or to be marked at the beginning. -/
theorem mark_closed
    (h : ∀ n, Flagged alive n → ∀ m ∈ holds n, m.index < alive.size → Flagged alive m ∨ m ∈ todo)
    (hn : Flagged (mark holds alive todo) n) (hm : m ∈ holds n) (hlt : m.index < alive.size) :
    Flagged (mark holds alive todo) m := by
  fun_induction mark holds alive todo with
  | case1 alive => exact (h n hn m hm hlt).resolve_right (List.not_mem_nil)
  | case2 alive x rest hx ih =>
    refine ih (fun k hk y hy hylt => ?_) hn (by rwa [Array.size_setIfInBounds])
    rw [Array.size_setIfInBounds] at hylt
    by_cases hkx : k = x
    · subst hkx
      exact .inr (List.mem_append_left _ hy)
    · have hk' : Flagged alive k := by
        have hne : x.index ≠ k.index := fun he => hkx (by cases k; cases x; cases he; rfl)
        rwa [Flagged, Array.getElem?_setIfInBounds_ne hne] at hk
      rcases h k hk' y hy hylt with hy' | hy'
      · exact .inl (hy'.set x.index)
      · rcases List.mem_cons.1 hy' with rfl | hy'
        · exact .inl (flagged_set hylt)
        · exact .inr (List.mem_append_right _ hy')
  | case3 alive x rest hx ih =>
    refine ih (fun k hk y hy hylt => ?_) hn hlt
    rcases h k hk y hy hylt with hy' | hy'
    · exact .inl hy'
    · rcases List.mem_cons.1 hy' with rfl | hy'
      · refine .inl ?_
        have hget : alive[y.index]? = some alive[y.index] := Array.getElem?_eq_getElem hylt
        rw [Flagged, hget]
        cases hv : alive[y.index] with
        | true => rfl
        | false => exact absurd (by rw [hget, hv]) hx
      · exact .inr hy'

end Mark

namespace Document

variable {d d' d'' : Document} {nodes nodes' : List NodeId} {custody : Custody} {n m p : NodeId}
  {a : AttributeId} {alive : NodeId → Bool}

/-- Some nodes, and all below them. -/
inductive Kept (d : Document) (nodes : List NodeId) : NodeId → Prop where
  | root {n : NodeId} : n ∈ nodes → Kept d nodes n
  | child {p n : NodeId} : Kept d nodes p → n ∈ d.children p → Kept d nodes n

theorem Kept.mono (h : d.Kept nodes n) (hsub : ∀ n ∈ nodes, d.Kept nodes' n) : d.Kept nodes' n := by
  induction h with
  | root hn => exact hsub _ hn
  | child _ hn ih => exact .child ih hn

theorem Kept.of_subset (h : d.Kept nodes n) (hsub : nodes ⊆ nodes') : d.Kept nodes' n :=
  h.mono fun _ hn => .root (hsub hn)

/-- What the plants that stand below a node are is kept with it. -/
theorem Stands.kept {q : Plant} (h : d.Stands q) (hq : d.Kept nodes q.id) (hn : n ∈ q.ids) :
    d.Kept nodes n := by
  induction h with
  | @element id tag children _ _ _ row _ ih =>
    rw [Plant.ids, List.mem_cons] at hn
    rcases hn with rfl | hn
    · exact hq
    · obtain ⟨c, hc, hn⟩ := Plant.mem_idsAll.1 hn
      exact ih c hc (.child hq (row ▸ List.mem_map_of_mem hc)) hn
  | text => exact List.mem_singleton.1 (by rwa [Plant.ids] at hn) ▸ hq
  | comment => exact List.mem_singleton.1 (by rwa [Plant.ids] at hn) ▸ hq

theorem flagged_alive (h : d.Kept custody.nodes n) (hn : d.Has n) : Flagged (d.alive custody) n := by
  refine Flagged.mark ?_
  have hsize : (Array.replicate d.nodes.size false).size = d.nodes.size := Array.size_replicate ..
  induction h with
  | root hmem => exact flagged_mark (List.mem_append_left _ hmem) (by rwa [hsize])
  | child hp hmem ih =>
    refine mark_closed (fun k hk => ?_) (ih (has_of_mem_children hmem))
      (List.mem_append_left _ hmem) (by rwa [hsize])
    rw [Flagged, Array.getElem?_replicate] at hk
    split at hk <;> cases hk

/-! ### What is left when only some nodes are kept -/

theorem node_keepOnly (hn : d.Has n) : (d.keepOnly alive).node n =
    if alive n then { d.node n with parent := (d.node n).parent.filter alive }
    else { d.node n with
      parent := (d.node n).parent.filter alive, children := [], attributes := [], properties := [] } := by
  have hget : d.nodes[n.index]? = some (d.node n) := by
    rw [node, Array.getD_eq_getD_getElem?, Array.getElem?_eq_getElem hn, Option.getD_some]
  rw [node, keepOnly, Array.getD_eq_getD_getElem?, Array.getElem?_mapIdx, hget]
  rfl

theorem has_keepOnly : (d.keepOnly alive).Has n ↔ d.Has n := by
  rw [Has, keepOnly, Array.size_mapIdx, Has]

theorem node_keepOnly_of_not_has (hn : ¬ d.Has n) : (d.keepOnly alive).node n = d.node n := by
  rw [node_of_not_has hn, node_of_not_has fun h => hn (has_keepOnly.1 h)]

theorem parent?_keepOnly : (d.keepOnly alive).parent? n = (d.parent? n).filter alive := by
  by_cases hn : d.Has n
  · rw [parent?, node_keepOnly hn]
    split <;> rfl
  · rw [parent?, node_keepOnly_of_not_has hn, parent?, node_of_not_has hn]
    rfl

theorem kind_keepOnly : (d.keepOnly alive).kind n = d.kind n := by
  by_cases hn : d.Has n
  · rw [kind, node_keepOnly hn]
    split <;> rfl
  · rw [kind, node_keepOnly_of_not_has hn, kind]

theorem children_keepOnly (hn : d.Has n) :
    (d.keepOnly alive).children n = if alive n then d.children n else [] := by
  rw [children, node_keepOnly hn]
  split <;> rfl

theorem attr_keepOnly :
    (d.keepOnly alive).attr a = { d.attr a with owner := (d.attr a).owner.filter alive } := by
  rw [attr, keepOnly, Array.getD_eq_getD_getElem?, Array.getElem?_map, attr,
    Array.getD_eq_getD_getElem?]
  cases d.attributes[a.index]? <;> rfl

theorem mem_children_keepOnly :
    n ∈ (d.keepOnly alive).children p ↔ alive p ∧ n ∈ d.children p := by
  by_cases hp : d.Has p
  · rw [children_keepOnly hp]
    split <;> simp_all
  · rw [children, node_keepOnly_of_not_has hp, children, node_of_not_has hp]
    exact iff_of_false List.not_mem_nil fun h => List.not_mem_nil h.2

theorem Forest.keepOnly (hf : d.Forest) (alive : NodeId → Bool) : (d.keepOnly alive).Forest where
  parent_of_mem h := by
    rw [mem_children_keepOnly] at h
    rw [parent?_keepOnly, hf.parent_of_mem h.2, Option.filter_some, if_pos h.1]
  mem_of_parent h := by
    rw [parent?_keepOnly, Option.filter_eq_some_iff] at h
    exact mem_children_keepOnly.2 ⟨h.2, hf.mem_of_parent h.1⟩
  nodup p := by
    by_cases hp : d.Has p
    · rw [children_keepOnly hp]
      split
      · exact hf.nodup p
      · exact List.nodup_nil
    · rw [children, node_keepOnly_of_not_has hp]
      exact hf.nodup p
  inner h := by
    rw [parent?_keepOnly, Option.filter_eq_some_iff] at h
    rw [leaf?, kind_keepOnly]
    exact hf.inner h.1
  solid h := by
    rw [parent?_keepOnly, Option.filter_eq_some_iff] at h
    rw [isFragment, kind_keepOnly]
    exact hf.solid h.1
  acyclic {p n} h ha := by
    rw [parent?_keepOnly, Option.filter_eq_some_iff] at h
    have habove : ∀ {m}, (d.keepOnly alive).Above p m → d.Above p m := by
      intro m hm
      induction hm with
      | self => exact .self
      | up _ hp ih =>
        rw [parent?_keepOnly, Option.filter_eq_some_iff] at hp
        exact ih.up hp.1
    exact hf.acyclic h.1 (habove ha)

theorem attributes_keepOnly (hn : d.Has n) :
    ((d.keepOnly alive).node n).attributes = if alive n then (d.node n).attributes else [] := by
  rw [node_keepOnly hn]
  split <;> rfl

theorem Owned.keepOnly (ho : d.Owned) (alive : NodeId → Bool) : (d.keepOnly alive).Owned where
  owner {n a} h := by
    by_cases hn : d.Has n
    · rw [attributes_keepOnly hn] at h
      split at h
      · rename_i halive
        rw [attr_keepOnly, ho.owner h]
        exact if_pos halive
      · cases h
    · rw [node_keepOnly_of_not_has hn, node_of_not_has hn] at h
      cases h
  nodup n := by
    by_cases hn : d.Has n
    · rw [attributes_keepOnly hn]
      split
      · exact ho.nodup n
      · exact List.nodup_nil
    · rw [node_keepOnly_of_not_has hn]
      exact ho.nodup n

theorem unchanged_keepOnly (h : alive n) : Unchanged d (d.keepOnly alive) n := by
  have hnode : ((d.keepOnly alive).node n).data = (d.node n).data ∧
      ((d.keepOnly alive).node n).attributes = (d.node n).attributes ∧
      (d.keepOnly alive).children n = d.children n := by
    by_cases hn : d.Has n
    · rw [children, node_keepOnly hn, if_pos h]
      exact ⟨rfl, rfl, rfl⟩
    · rw [children, node_keepOnly_of_not_has hn]
      exact ⟨rfl, rfl, rfl⟩
  refine ⟨has_keepOnly.2, kind_keepOnly, hnode.1, hnode.2.1, ?_, hnode.2.2⟩
  rw [attributePairs, hnode.2.1, attributePairs]
  exact List.map_congr_left fun a _ => by rw [attr_keepOnly]

theorem release_eq (d : Document) (custody : Custody) :
    d.release custody = d.keepOnly fun n => (d.alive custody).getD n.index false := rfl

theorem Sound.release (hs : d.Sound) (custody : Custody) : (d.release custody).Sound := by
  rw [release_eq]
  exact ⟨hs.forest.keepOnly _, hs.owned.keepOnly _⟩

theorem release_unchanged (h : d.Kept custody.nodes n) (hn : d.Has n) :
    Unchanged d (d.release custody) n := by
  rw [release_eq]
  refine unchanged_keepOnly ?_
  have hflag := flagged_alive h hn
  rw [Flagged] at hflag
  rw [Array.getD_eq_getD_getElem?, hflag]
  rfl

/-! ### What a step keeps -/

/-- A step adds to a document, and leaves alone what some nodes lead to. No node that was there and
had no parent is put anywhere, and no attribute that was there and on no element is put on one. -/
structure Keeps (d d' : Document) (nodes : List NodeId) : Prop where
  nodes_le : d.nodes.size ≤ d'.nodes.size
  attributes_le : d.attributes.size ≤ d'.attributes.size
  kind : ∀ n, d.Has n → d'.kind n = d.kind n
  same : ∀ n, d.Has n → d.Kept nodes n → Unchanged d d' n
  loose : ∀ n, d.Has n → d.parent? n = none → d'.parent? n = none
  attr : ∀ a, d.HasAttribute a → (d'.attr a).name = (d.attr a).name ∧
    (d'.attr a).value = (d.attr a).value ∧ ((d.attr a).owner = none → (d'.attr a).owner = none)
  notices : d'.notices = d.notices

namespace Keeps

theorem has (h : Keeps d d' nodes) (hn : d.Has n) : d'.Has n :=
  Nat.lt_of_lt_of_le hn h.nodes_le

theorem hasAttribute (h : Keeps d d' nodes) (ha : d.HasAttribute a) : d'.HasAttribute a :=
  Nat.lt_of_lt_of_le ha h.attributes_le

theorem kept (h : Keeps d d' nodes) (hn : d.Kept nodes n) : d'.Kept nodes n := by
  induction hn with
  | root hn => exact .root hn
  | child hp hn ih =>
    exact .child ih ((h.same _ (has_of_mem_children hn) hp).children ▸ hn)

theorem refl (d : Document) (nodes : List NodeId) : Keeps d d nodes :=
  ⟨Nat.le_refl _, Nat.le_refl _, fun _ _ => rfl, fun n _ _ => .refl d n, fun _ _ h => h,
    fun _ _ => ⟨rfl, rfl, id⟩, rfl⟩

theorem trans (h : Keeps d d' nodes) (h' : Keeps d' d'' nodes) : Keeps d d'' nodes where
  nodes_le := Nat.le_trans h.nodes_le h'.nodes_le
  attributes_le := Nat.le_trans h.attributes_le h'.attributes_le
  kind n hn := (h'.kind n (h.has hn)).trans (h.kind n hn)
  same n hn hk := (h.same n hn hk).trans (h'.same n (h.has hn) (h.kept hk))
  loose n hn hp := h'.loose n (h.has hn) (h.loose n hn hp)
  attr a ha := by
    have h₁ := h.attr a ha
    have h₂ := h'.attr a (h.hasAttribute ha)
    exact ⟨h₂.1.trans h₁.1, h₂.2.1.trans h₁.2.1, h₂.2.2 ∘ h₁.2.2⟩
  notices := h'.notices.trans h.notices

theorem mono (h : Keeps d d' nodes') (hsub : nodes ⊆ nodes') : Keeps d d' nodes where
  nodes_le := h.nodes_le
  attributes_le := h.attributes_le
  kind := h.kind
  same n hn hk := h.same n hn (hk.of_subset hsub)
  loose := h.loose
  attr := h.attr
  notices := h.notices

theorem bears (h : Keeps d d' nodes) {root : Option NodeId} {ps : List Plant}
    (hb : d.Bears root ps) (hroot : ∀ p, root = some p → d.Has p ∧ d.Kept nodes p)
    (hps : root = none → ∀ q ∈ ps, d.Kept nodes q.id) : d'.Bears root ps where
  row p hp := by
    rw [(h.same p (hroot p hp).1 (hroot p hp).2).children, hb.row p hp]
  stand q hq := by
    have hkept : d.Kept nodes q.id := by
      cases root with
      | none => exact hps rfl q hq
      | some p => exact .child (hroot p rfl).2 (hb.row p rfl ▸ List.mem_map_of_mem hq)
    have hstand := hb.stand q hq
    exact hstand.congr fun n hn => h.same n (hstand.has_of_mem hn) (hstand.kept hkept hn)

end Keeps

theorem Extends.keeps (h : Extends d d' []) (ho : d.Owned) (nodes : List NodeId) :
    Keeps d d' nodes where
  nodes_le := h.nodes
  attributes_le := h.attributes
  kind _ hn := h.kind hn
  same _ hn _ := h.unchanged ho hn (List.not_mem_nil)
  loose n hn hp := by rw [h.parent? n hn, hp]
  attr a ha := by
    rw [h.attr a ha]
    exact ⟨rfl, rfl, id⟩
  notices := h.notices

theorem keeps_release (hnodes : nodes ⊆ custody.nodes) : Keeps d (d.release custody) nodes where
  nodes_le := Nat.le_of_eq (by rw [release_eq, keepOnly, Array.size_mapIdx])
  attributes_le := Nat.le_of_eq (by rw [release_eq, keepOnly, Array.size_map])
  kind _ _ := kind_keepOnly
  same _ hn hk := release_unchanged (hk.of_subset hnodes) hn
  loose n _ hp := by
    rw [release_eq, parent?_keepOnly, hp]
    rfl
  attr a _ := by
    rw [release_eq, attr_keepOnly]
    refine ⟨rfl, rfl, fun ho => ?_⟩
    rw [ho]
    rfl
  notices := rfl

/-- A step that touches only what was made after a document leaves alone all of that document. -/
structure Spares (base d d' : Document) : Prop where
  nodes_le : d.nodes.size ≤ d'.nodes.size
  attributes_le : d.attributes.size ≤ d'.attributes.size
  kind : ∀ n, d.Has n → d'.kind n = d.kind n
  same : ∀ n, base.Has n → Unchanged d d' n
  loose : ∀ n, base.Has n → d.parent? n = none → d'.parent? n = none
  attr : ∀ a, base.HasAttribute a → d'.attr a = d.attr a
  notices : d'.notices = d.notices

theorem Keeps.spares {base : Document} (h : Keeps base d nodes) (h' : Spares base d d') :
    Keeps base d' nodes where
  nodes_le := Nat.le_trans h.nodes_le h'.nodes_le
  attributes_le := Nat.le_trans h.attributes_le h'.attributes_le
  kind n hn := (h'.kind n (h.has hn)).trans (h.kind n hn)
  same n hn hk := (h.same n hn hk).trans (h'.same n hn)
  loose n hn hp := h'.loose n hn (h.loose n hn hp)
  attr a ha := by
    rw [h'.attr a ha]
    exact h.attr a ha
  notices := h'.notices.trans h.notices

end Document

end LiveMarkup
