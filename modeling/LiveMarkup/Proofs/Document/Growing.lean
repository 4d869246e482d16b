import LiveMarkup.Proofs.Document.Shifting
import LiveMarkup.Proofs.Document.Sprouts
import LiveMarkup.Proofs.Document.Standing
/-!
# What has been made stays made

A document only ever gets more nodes, attributes and groups: no operation takes a number back, so a new
node, attribute or group is never mistaken for one that something still refers to (`Grows`). Nodes stay what
they are, and apart from those texts and attributes that an operation is meant to change, what they say
stays as well (`Evolves`). This holds of every change of a document, also of one that is refused, so it asks
for nothing.
-/

namespace LiveMarkup

namespace Document

variable {d d' d'' : Document} {n p : NodeId} {texts : List NodeId} {attributes : List AttributeId}

/-- A document has all numbers of another one in use. -/
structure Grows (d d' : Document) : Prop where
  nodes : d.nodes.size ≤ d'.nodes.size
  attributes : d.attributes.size ≤ d'.attributes.size
  groups : d.groups ≤ d'.groups

namespace Grows

theorem refl (d : Document) : d.Grows d :=
  ⟨Nat.le_refl _, Nat.le_refl _, Nat.le_refl _⟩

theorem trans (h : d.Grows d') (h' : d'.Grows d'') : d.Grows d'' :=
  ⟨Nat.le_trans h.nodes h'.nodes, Nat.le_trans h.attributes h'.attributes,
    Nat.le_trans h.groups h'.groups⟩

theorem has (h : d.Grows d') (hn : d.Has n) : d'.Has n :=
  Nat.lt_of_lt_of_le hn h.nodes

theorem hasAttribute (h : d.Grows d') {a : AttributeId} (ha : d.HasAttribute a) : d'.HasAttribute a :=
  Nat.lt_of_lt_of_le ha h.attributes

end Grows

/-- A document has grown, and of what was there only some nodes may say something else, and only some
attributes. -/
structure Evolves (d d' : Document) (texts : List NodeId) (attributes : List AttributeId) : Prop where
  grows : d.Grows d'
  notices : d.notices <:+ d'.notices
  kind : ∀ n, d.Has n → d'.kind n = d.kind n
  data : ∀ n, d.Has n → n ∉ texts → (d'.node n).data = (d.node n).data
  value : ∀ a, d.HasAttribute a → a ∉ attributes → (d'.attr a).value = (d.attr a).value

namespace Evolves

theorem refl (d : Document) : d.Evolves d texts attributes :=
  ⟨.refl d, List.suffix_refl _, fun _ _ => rfl, fun _ _ _ => rfl, fun _ _ _ => rfl⟩

theorem trans (h : d.Evolves d' texts attributes) (h' : d'.Evolves d'' texts attributes) :
    d.Evolves d'' texts attributes where
  grows := h.grows.trans h'.grows
  notices := h.notices.trans h'.notices
  kind n hn := (h'.kind n (h.grows.has hn)).trans (h.kind n hn)
  data n hn ht := (h'.data n (h.grows.has hn) ht).trans (h.data n hn ht)
  value a ha hv := (h'.value a (h.grows.hasAttribute ha) hv).trans (h.value a ha hv)

theorem mono (h : d.Evolves d' texts attributes) {texts' : List NodeId} {attributes' : List AttributeId}
    (ht : texts ⊆ texts') (ha : attributes ⊆ attributes') : d.Evolves d' texts' attributes' :=
  ⟨h.grows, h.notices, h.kind, fun n hn hm => h.data n hn fun hmem => hm (ht hmem),
    fun a hhas hm => h.value a hhas fun hmem => hm (ha hmem)⟩

/-- Whatever each step of a fold does, so does the fold. -/
theorem foldl {α : Type} {step : Document → α → Document}
    (h : ∀ (d : Document) a, d.Evolves (step d a) texts attributes) (as : List α) (d : Document) :
    d.Evolves (as.foldl step d) texts attributes := by
  induction as generalizing d with
  | nil => exact refl d
  | cons a rest ih => exact (h d a).trans (ih _)

end Evolves

theorem Shifts.grows {targets : List NodeId} (h : d.Shifts d' targets) : d.Grows d' where
  nodes := Nat.le_of_eq h.relinked.size.symm
  attributes := Nat.le_of_eq (congrArg Array.size h.relinked.attributes).symm
  groups := Nat.le_of_eq h.relinked.groups.symm

theorem Shifts.evolves {targets : List NodeId} (h : d.Shifts d' targets) : d.Evolves d' texts attributes where
  grows := h.grows
  notices := h.notices
  kind n _ := h.relinked.kind n
  data n _ _ := h.relinked.data n
  value a _ _ := by rw [h.relinked.attr a]

/-! ### Nodes -/

/-- A block stays what it is. -/
theorem Holds.evolves {b : Block} {span texts : List NodeId} {attributes : List AttributeId}
    (h : d.Holds b span) (hd : d.Evolves d' texts attributes) : d'.Holds b span where
  spans := h.spans
  has n hn := hd.grows.has (h.has n hn)
  solid n hn := by
    rw [isFragment, hd.kind n (h.has n hn)]
    exact h.solid n hn
  has_fragment f hf := hd.grows.has (h.has_fragment f hf)
  fragment f hf := by
    rw [isFragment, hd.kind f (h.has_fragment f hf)]
    exact h.fragment f hf

theorem evolves_count (d : Document) : d.Evolves d.count texts attributes :=
  (shifts_count d []).evolves

theorem evolves_note (d : Document) (notice : Notice) : d.Evolves (d.note notice) texts attributes :=
  (shifts_note d notice []).evolves

/-- A node is changed, but not what it is and what it says. -/
theorem evolves_update (d : Document) (n : NodeId) (f : Node → Node) (hkind : ∀ r, (f r).kind = r.kind)
    (hdata : ∀ r, (f r).data = r.data) : d.Evolves (d.update n f) texts attributes where
  grows := ⟨Nat.le_of_eq (size_nodes_update ..).symm, Nat.le_refl _, Nat.le_refl _⟩
  notices := List.suffix_refl _
  kind m _ := by
    rw [kind, node_update]
    split
    · exact hkind _
    · rfl
  data m _ _ := by
    rw [node_update]
    split
    · exact hdata _
    · rfl
  value _ _ _ := rfl

theorem evolves_setCell (d : Document) (c : CellId) (n : NodeId) :
    d.Evolves (d.setCell c n) texts attributes :=
  ⟨⟨Nat.le_refl _, Nat.le_refl _, Nat.le_refl _⟩, List.suffix_refl _, fun _ _ => rfl, fun _ _ _ => rfl,
    fun _ _ _ => rfl⟩

theorem grows_create (d : Document) (kind : NodeKind) (data : String) :
    d.Grows (d.create kind data).2 :=
  ⟨Nat.le_trans (Nat.le_succ _) (Nat.le_of_eq (budded_create d kind data).nodes.symm),
    Nat.le_refl _, Nat.le_refl _⟩

theorem evolves_create (d : Document) (kind : NodeKind) (data : String) :
    d.Evolves (d.create kind data).2 texts attributes where
  grows := grows_create d kind data
  notices := List.suffix_refl _
  kind _ hn := kind_create hn
  data n hn _ := by rw [node_create, if_neg hn.ne_next]
  value _ _ _ := rfl

theorem evolves_link (d : Document) (p n : NodeId) : d.Evolves (d.link p n) texts attributes := by
  refine Evolves.trans ?_ (evolves_update _ n _ (fun _ => rfl) fun _ => rfl)
  exact evolves_update d p _ (fun _ => rfl) fun _ => rfl

theorem evolves_setData (d : Document) {n : NodeId} (hn : n ∈ texts) (data : String) :
    d.Evolves (d.setData n data) texts attributes where
  grows := ⟨Nat.le_of_eq (size_nodes_update ..).symm, Nat.le_refl _, Nat.le_refl _⟩
  notices := List.suffix_refl _
  kind _ _ := kind_setData
  data m _ hm := by rw [node_setData_of_ne (ne_of_mem_of_not_mem hn hm).symm]
  value _ _ _ := rfl

/-- A node that can have children does not say anything else when it gets other content. -/
theorem evolves_setText_of_inner (d : Document) {n : NodeId} (hinner : d.leaf? n = none) (text : String) :
    d.Evolves (d.setText n text) texts attributes := by
  unfold setText
  rw [hinner]
  refine ((evolves_count d).trans (shifts_clear d.count n []).evolves).trans ?_
  dsimp only
  split
  · exact .refl _
  · exact (evolves_create ..).trans (shifts_attach (List.mem_singleton_self n) ..).evolves

theorem evolves_setText (d : Document) {n : NodeId} (hn : n ∈ texts) (text : String) :
    d.Evolves (d.setText n text) texts attributes := by
  cases hleaf : d.leaf? n with
  | none => exact evolves_setText_of_inner d hleaf text
  | some leaf =>
    unfold setText
    rw [hleaf]
    exact evolves_setData d hn text

theorem grows_setText (d : Document) (n : NodeId) (text : String) : d.Grows (d.setText n text) :=
  (evolves_setText d (List.mem_singleton_self n) text : d.Evolves _ [n] []).grows

/-! ### Blocks -/

theorem evolves_blockOfOwn (d : Document) (fragment : NodeId) :
    d.Evolves (d.blockOfOwn fragment).2 texts attributes := by
  have hblock : d.Evolves (d.blockOf fragment).2 texts attributes := by
    unfold blockOf
    split
    · exact .refl d
    · exact ⟨⟨Nat.le_refl _, Nat.le_refl _, Nat.le_succ _⟩, List.suffix_refl _, fun _ _ => rfl,
        fun _ _ _ => rfl, fun _ _ _ => rfl⟩
  refine hblock.trans ?_
  unfold blockOfOwn
  dsimp only
  split
  · exact (shifts_detach _ _ []).evolves
  · exact .refl _

/-! ### Attributes, properties and listeners -/

/-- An attribute is changed, but not its value, unless that may change. -/
theorem evolves_updateAttribute (d : Document) (a : AttributeId) (f : Attribute → Attribute)
    (hf : a ∈ attributes ∨ ∀ r, (f r).value = r.value) :
    d.Evolves (d.updateAttribute a f) texts attributes where
  grows := ⟨Nat.le_refl _, Nat.le_of_eq (Array.size_modify ..).symm, Nat.le_refl _⟩
  notices := List.suffix_refl _
  kind _ _ := rfl
  data _ _ _ := rfl
  value b _ hb := by
    rw [attr_updateAttribute]
    split
    · rename_i hba
      exact hf.elim (fun ha => absurd (hba.1 ▸ ha) hb) fun h => h _
    · rfl

theorem evolves_createAttribute (d : Document) (name : String) :
    d.Evolves (d.createAttribute name).2 texts attributes where
  grows := ⟨Nat.le_refl _, Nat.le_trans (Nat.le_succ _) (Nat.le_of_eq (Array.size_push _).symm),
    Nat.le_refl _⟩
  notices := List.suffix_refl _
  kind _ _ := rfl
  data _ _ _ := rfl
  value a ha _ := by rw [attr_createAttribute, if_neg ha.ne_next]

theorem evolves_giveAttribute (d : Document) (n : NodeId) (name value : String) :
    d.Evolves (d.giveAttribute n name value) texts attributes where
  grows := ⟨Nat.le_of_eq (size_nodes_update ..).symm,
    Nat.le_trans (Nat.le_succ _) (Nat.le_of_eq (Array.size_push _).symm), Nat.le_refl _⟩
  notices := List.suffix_refl _
  kind m _ := by
    rw [kind, node_giveAttribute]
    split <;> rfl
  data m _ _ := by
    rw [node_giveAttribute]
    split <;> rfl
  value a ha _ := by rw [attr_giveAttribute, if_neg ha.ne_next]

theorem evolves_setAttributeValue (d : Document) {a : AttributeId} (ha : a ∈ attributes)
    (value : String) : d.Evolves (d.setAttributeValue a value) texts attributes :=
  (evolves_count d).trans (evolves_updateAttribute _ a _ (.inl ha))

theorem evolves_placeAttribute (d : Document) (n : NodeId) (a : AttributeId) :
    d.Evolves (d.placeAttribute n a) texts attributes := by
  refine (evolves_count d).trans ?_
  unfold placeAttribute
  dsimp only
  refine .trans ?_ (evolves_updateAttribute _ a _ (.inr fun _ => rfl))
  split
  · refine Evolves.trans ?_ (evolves_updateAttribute _ _ _ (.inr fun _ => rfl))
    exact evolves_update _ n _ (fun _ => rfl) fun _ => rfl
  · exact evolves_update _ n _ (fun _ => rfl) fun _ => rfl

theorem evolves_putAttribute (d : Document) (n : NodeId) (a : AttributeId) :
    d.Evolves (d.putAttribute n a) texts attributes := by
  unfold putAttribute
  split
  · split
    · exact evolves_placeAttribute ..
    · split
      · exact .refl d
      · exact evolves_note ..
  · exact evolves_note ..

theorem evolves_takeAttribute (d : Document) (n : NodeId) (a : AttributeId) :
    d.Evolves (d.takeAttribute n a) texts attributes := by
  unfold takeAttribute
  split
  · refine Evolves.trans ?_ (evolves_updateAttribute _ a _ (.inr fun _ => rfl))
    exact (evolves_count d).trans (evolves_update _ n _ (fun _ => rfl) fun _ => rfl)
  · exact evolves_note ..

theorem evolves_setProperty (d : Document) (n : NodeId) (name : String) (value : Value) :
    d.Evolves (d.setProperty n name value) texts attributes :=
  (evolves_count d).trans (evolves_update _ n _ (fun _ => rfl) fun _ => rfl)

theorem evolves_addListener (d : Document) (n : NodeId) (type : String) (listener : ListenerId) :
    d.Evolves (d.addListener n type listener) texts attributes := by
  unfold addListener
  split
  · exact .refl d
  · exact (evolves_count d).trans (evolves_update _ n _ (fun _ => rfl) fun _ => rfl)

theorem evolves_removeListener (d : Document) (n : NodeId) (type : String) (listener : ListenerId) :
    d.Evolves (d.removeListener n type listener) texts attributes := by
  unfold removeListener
  split
  · exact (evolves_count d).trans (evolves_update _ n _ (fun _ => rfl) fun _ => rfl)
  · exact .refl d

/-! ### New content -/

theorem evolves_createElement (d : Document) (tag : Markup.Tag) :
    d.Evolves (d.createElement tag).2 texts attributes :=
  (evolves_create d _ _).trans (.foldl (fun d a => evolves_giveAttribute d _ a.1 a.2) tag.attributes _)

theorem evolves_trees :
    (∀ (t : Markup.Tree) (p : NodeId) (d : Document), d.Evolves (addTree p d t) texts attributes) ∧
      ∀ (ts : List Markup.Tree) (p : NodeId) (d : Document),
        d.Evolves (addContent p d ts) texts attributes := by
  refine Markup.Tree.induct ?_ ?_ ?_ ?_ ?_
  · intro tag children ih p d
    rw [addTree]
    exact ((evolves_createElement d tag).trans (evolves_link ..)).trans (ih _ _)
  · intro data p d
    exact (evolves_create d .text data).trans (evolves_link ..)
  · intro data p d
    exact (evolves_create d .comment data).trans (evolves_link ..)
  · exact fun p d => .refl d
  · intro t ts iht ihts p d
    rw [addContent]
    exact (iht p d).trans (ihts p _)

theorem evolves_createFragment (d : Document) (content : List Markup.Tree) :
    d.Evolves (d.createFragment content).2 texts attributes :=
  (evolves_create d .fragment "").trans (evolves_trees.2 content _ _)

end Document

end LiveMarkup
