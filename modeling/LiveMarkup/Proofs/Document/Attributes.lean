import LiveMarkup.Document.Attributes
import LiveMarkup.Proofs.Document.Moves
/-!
# Attributes and the elements that they are on

An attribute that is listed by a node has that node as its owner, and so no attribute is listed by two
nodes (`Owned`). A document that is a forest and whose attributes are owned is `Sound`. The operations
on attributes change one attribute and the list of one node, and keep a document sound.
-/

namespace LiveMarkup.Document

variable {d d' : Document} {n m p : NodeId} {a b : AttributeId} {name value : String}

/-- What lists an attribute is its owner, and lists it once. -/
structure Owned (d : Document) : Prop where
  owner : ∀ {n a}, a ∈ (d.node n).attributes → (d.attr a).owner = some n
  nodup : ∀ n, (d.node n).attributes.Nodup

/-- What can be relied on in every document. -/
structure Sound (d : Document) : Prop where
  forest : d.Forest
  owned : d.Owned

/-- The document has an attribute of this identity. -/
def HasAttribute (d : Document) (a : AttributeId) : Prop :=
  a.index < d.attributes.size

instance (d : Document) (a : AttributeId) : Decidable (d.HasAttribute a) :=
  Nat.decLt _ _

/-- The identity of the next attribute that is made. -/
def nextAttribute (d : Document) : AttributeId :=
  ⟨d.attributes.size⟩

theorem not_hasAttribute_next : ¬ d.HasAttribute d.nextAttribute :=
  Nat.lt_irrefl _

theorem HasAttribute.ne_next (h : d.HasAttribute a) : a ≠ d.nextAttribute := by
  rintro rfl
  exact not_hasAttribute_next h

theorem attr_of_not_has (h : ¬ d.HasAttribute a) : d.attr a = default := by
  have ha : d.attributes.size ≤ a.index := Nat.le_of_not_lt h
  simp [attr, Array.getD_eq_getD_getElem?, ha]

theorem hasAttribute_of_owner (h : (d.attr a).owner = some n) : d.HasAttribute a := by
  by_contra ha
  rw [attr_of_not_has ha] at h
  cases h

theorem Owned.hasAttribute (ho : d.Owned) (h : a ∈ (d.node n).attributes) : d.HasAttribute a :=
  hasAttribute_of_owner (ho.owner h)

/-- Only attributes that the document has are on nodes. -/
def Listed (d : Document) : Prop :=
  ∀ n, ∀ a ∈ (d.node n).attributes, d.HasAttribute a

theorem Owned.listed (ho : d.Owned) : d.Listed := fun _ _ ha => ho.hasAttribute ha

theorem Owned.congr (ho : d.Owned) (hnode : ∀ n, (d'.node n).attributes = (d.node n).attributes)
    (howner : ∀ a, (d'.attr a).owner = (d.attr a).owner) : d'.Owned where
  owner h := by
    rw [hnode] at h
    rw [howner]
    exact ho.owner h
  nodup n := by
    rw [hnode]
    exact ho.nodup n

/-- Moving nodes leaves all attributes where they are. -/
theorem Owned.relinked (ho : d.Owned) (h : Relinked d d') : d'.Owned :=
  ho.congr h.attributesOf fun a => by rw [h.attr a]

theorem owned_empty : Document.empty.Owned where
  owner {n a} h := by
    have hnode : Document.empty.node n = default := rfl
    rw [hnode] at h
    cases h
  nodup _ := List.nodup_nil

theorem sound_empty : Document.empty.Sound :=
  ⟨forest_empty, owned_empty⟩

theorem Owned.create (ho : d.Owned) (kind : NodeKind) (data : String) :
    (d.create kind data).2.Owned := by
  refine ho.congr (fun n => ?_) fun _ => rfl
  rw [node_create]
  split
  · rename_i hn
    rw [hn, node_of_not_has not_has_next]
    rfl
  · rfl

theorem Sound.create (hs : d.Sound) (kind : NodeKind) (data : String) :
    (d.create kind data).2.Sound :=
  ⟨hs.forest.create kind data, hs.owned.create kind data⟩

/-! ### Making attributes -/

theorem attr_createAttribute (d : Document) (name : String) (b : AttributeId) :
    (d.createAttribute name).2.attr b =
      if b = d.nextAttribute then ⟨name, "", none⟩ else d.attr b := by
  have hget : (d.createAttribute name).2.attr b
      = ((d.attributes.push ⟨name, "", none⟩)[b.index]?).getD default :=
    Array.getD_eq_getD_getElem? ..
  rw [hget, Array.getElem?_push, attr, Array.getD_eq_getD_getElem?]
  by_cases hb : b = d.nextAttribute
  · rw [if_pos hb, if_pos (by rw [hb]; rfl), Option.getD_some]
  · rw [if_neg hb, if_neg fun hi => hb (by cases b; cases hi; rfl)]

theorem Owned.createAttribute (ho : d.Owned) (name : String) :
    (d.createAttribute name).2.Owned := by
  refine ho.congr (fun _ => rfl) fun a => ?_
  rw [attr_createAttribute]
  split
  · rename_i ha
    rw [ha, attr_of_not_has not_hasAttribute_next]
    rfl
  · rfl

theorem Forest.congr (hf : d.Forest) (hchildren : ∀ n, d'.children n = d.children n)
    (hparent : ∀ n, d'.parent? n = d.parent? n) (hkind : ∀ n, d.Has n → d'.kind n = d.kind n) :
    d'.Forest where
  parent_of_mem h := by
    rw [hchildren] at h
    rw [hparent]
    exact hf.parent_of_mem h
  mem_of_parent h := by
    rw [hparent] at h
    rw [hchildren]
    exact hf.mem_of_parent h
  nodup p := by
    rw [hchildren]
    exact hf.nodup p
  inner h := by
    rw [hparent] at h
    rw [leaf?, hkind _ (has_of_mem_children (hf.mem_of_parent h))]
    exact hf.inner h
  solid h := by
    rw [hparent] at h
    rw [isFragment, hkind _ (has_of_parent? h)]
    exact hf.solid h
  acyclic h ha := by
    rw [hparent] at h
    exact hf.acyclic h (Above.congr (fun n _ => hparent n) ha)

/-- Changes to a node that leave its links alone. -/
theorem Forest.update (hf : d.Forest) (n : NodeId) {f : Node → Node}
    (hparent : ∀ r, (f r).parent = r.parent) (hchildren : ∀ r, (f r).children = r.children)
    (hkind : ∀ r, (f r).kind = r.kind) : (d.update n f).Forest := by
  have hnode : ∀ m, (d.update n f).node m = f (d.node m) ∨ (d.update n f).node m = d.node m := by
    intro m
    rw [node_update]
    split
    · exact .inl rfl
    · exact .inr rfl
  refine hf.congr (fun m => ?_) (fun m => ?_) fun m _ => ?_
  · rcases hnode m with h | h
    · rw [children, h, hchildren, children]
    · rw [children, h, children]
  · rcases hnode m with h | h
    · rw [parent?, h, hparent, parent?]
    · rw [parent?, h, parent?]
  · rcases hnode m with h | h
    · rw [Document.kind, h, hkind, Document.kind]
    · rw [Document.kind, h, Document.kind]

/-! ### Giving a new element its attributes -/

theorem node_giveAttribute (d : Document) (n : NodeId) (name value : String) (m : NodeId) :
    (d.giveAttribute n name value).node m =
      if m = n ∧ d.Has n then
        { d.node m with attributes := (d.node m).attributes ++ [d.nextAttribute] }
      else d.node m :=
  node_update ..

theorem attr_giveAttribute (d : Document) (n : NodeId) (name value : String) (b : AttributeId) :
    (d.giveAttribute n name value).attr b =
      if b = d.nextAttribute then ⟨name, value, some n⟩ else d.attr b := by
  have hget : (d.giveAttribute n name value).attr b
      = ((d.attributes.push ⟨name, value, some n⟩)[b.index]?).getD default :=
    Array.getD_eq_getD_getElem? ..
  rw [hget, Array.getElem?_push, attr, Array.getD_eq_getD_getElem?]
  by_cases hb : b = d.nextAttribute
  · rw [if_pos hb, if_pos (by rw [hb]; rfl), Option.getD_some]
  · rw [if_neg hb, if_neg fun hi => hb (by cases b; cases hi; rfl)]

theorem Owned.giveAttribute (ho : d.Owned) (name value : String) :
    (d.giveAttribute n name value).Owned where
  owner {m a} h := by
    rw [node_giveAttribute] at h
    rw [attr_giveAttribute]
    split at h
    · rename_i hm
      rw [List.mem_append, List.mem_singleton] at h
      rcases h with h | h
      · rw [if_neg (ho.hasAttribute h).ne_next]
        exact ho.owner h
      · rw [if_pos h, hm.1]
    · rw [if_neg (ho.hasAttribute h).ne_next]
      exact ho.owner h
  nodup m := by
    rw [node_giveAttribute]
    split
    · rw [List.nodup_append]
      refine ⟨ho.nodup m, List.nodup_singleton _, ?_⟩
      intro a ha b hb
      rw [List.mem_singleton.1 hb]
      exact (ho.hasAttribute ha).ne_next
    · exact ho.nodup m

theorem Sound.giveAttribute (hs : d.Sound) (name value : String) :
    (d.giveAttribute n name value).Sound := by
  refine ⟨?_, hs.owned.giveAttribute name value⟩
  have hpush : ({ d with attributes := d.attributes.push ⟨name, value, some n⟩ } :
      Document).Forest :=
    hs.forest.congr (fun _ => rfl) (fun _ => rfl) fun _ _ => rfl
  exact hpush.update n (fun _ => rfl) (fun _ => rfl) fun _ => rfl

/-! ### Changing an attribute -/

theorem attr_updateAttribute (d : Document) (a b : AttributeId) (f : Attribute → Attribute) :
    (d.updateAttribute a f).attr b = if b = a ∧ d.HasAttribute a then f (d.attr b) else d.attr b := by
  have hget : (d.updateAttribute a f).attr b
      = ((d.attributes.modify a.index f)[b.index]?).getD default :=
    Array.getD_eq_getD_getElem? ..
  rw [hget, Array.getElem?_modify, attr, Array.getD_eq_getD_getElem?]
  by_cases hb : b = a
  · subst hb
    rw [if_pos rfl]
    by_cases hh : d.HasAttribute b
    · have hlt : b.index < d.attributes.size := hh
      rw [if_pos ⟨rfl, hh⟩]
      simp [hlt]
    · have hle : d.attributes.size ≤ b.index := Nat.le_of_not_lt hh
      rw [if_neg fun h => hh h.2]
      simp [hle]
  · rw [if_neg fun hi => hb (by cases a; cases b; cases hi; rfl), if_neg fun h => hb h.1]

/-- The documents have the same nodes with the same links, and only one attribute and the list of
attributes of one node may be others. -/
structure Reattributed (d d' : Document) (n : NodeId) (a : AttributeId) : Prop where
  size : d'.nodes.size = d.nodes.size
  attributes : d'.attributes.size = d.attributes.size
  node : ∀ m, ∃ as, d'.node m = { d.node m with attributes := as } ∧
    (m ≠ n → as = (d.node m).attributes)
  attr : ∀ b, b ≠ a → d'.attr b = d.attr b
  name : (d'.attr a).name = (d.attr a).name
  groups : d'.groups = d.groups
  cells : d'.cells = d.cells
  notices : d'.notices = d.notices

namespace Reattributed

variable (h : Reattributed d d' n a)

include h

theorem children (m : NodeId) : d'.children m = d.children m := by
  obtain ⟨as, hm, -⟩ := h.node m
  rw [Document.children, hm, Document.children]

theorem parent? (m : NodeId) : d'.parent? m = d.parent? m := by
  obtain ⟨as, hm, -⟩ := h.node m
  rw [Document.parent?, hm, Document.parent?]

theorem kind (m : NodeId) : d'.kind m = d.kind m := by
  obtain ⟨as, hm, -⟩ := h.node m
  rw [Document.kind, hm, Document.kind]

theorem node_of_ne (hm : m ≠ n) : d'.node m = d.node m := by
  obtain ⟨as, hnode, has⟩ := h.node m
  rw [hnode, has hm]

theorem forest (hf : d.Forest) : d'.Forest :=
  hf.congr h.children h.parent? fun m _ => h.kind m

end Reattributed

/-- Giving an attribute a value leaves it where it is. -/
theorem reattributed_setAttributeValue (d : Document) (n : NodeId) (a : AttributeId)
    (value : String) : Reattributed d (d.setAttributeValue a value) n a where
  size := rfl
  attributes := Array.size_modify ..
  node m := ⟨_, rfl, fun _ => rfl⟩
  attr b hb := by
    rw [setAttributeValue, attr_updateAttribute, if_neg fun h => hb h.1]
    rfl
  name := by
    rw [setAttributeValue, attr_updateAttribute]
    split <;> rfl
  groups := rfl
  cells := rfl
  notices := rfl

theorem attr_setAttributeValue (h : d.HasAttribute a) :
    (d.setAttributeValue a value).attr a = { d.attr a with value } := by
  rw [setAttributeValue, attr_updateAttribute, if_pos ⟨rfl, h⟩]
  rfl

theorem Sound.setAttributeValue (hs : d.Sound) (a : AttributeId) (value : String) :
    (d.setAttributeValue a value).Sound := by
  refine ⟨(reattributed_setAttributeValue d ⟨0⟩ a value).forest hs.forest, ?_⟩
  refine hs.owned.congr (fun _ => rfl) fun b => ?_
  rw [Document.setAttributeValue, attr_updateAttribute]
  split <;> rfl

/-- An attribute that is on no element is put behind all others, if none has its name. -/
theorem putAttribute_eq (helement : d.isElement n = true) (howner : (d.attr a).owner = none)
    (hname : ∀ b ∈ (d.node n).attributes, (d.attr b).name ≠ (d.attr a).name) :
    d.putAttribute n a =
      ((d.count.update n fun r => { r with attributes := r.attributes ++ [a] }).updateAttribute a
        fun r => { r with owner := some n }) := by
  have hfind : ((d.node n).attributes.find? fun b => (d.attr b).name == (d.attr a).name) = none := by
    rw [List.find?_eq_none]
    intro b hb
    simpa using hname b hb
  have hcount : (d.count.node n).attributes.find?
      (fun b => (d.count.attr b).name == (d.count.attr a).name) = none := hfind
  rw [putAttribute, if_pos helement, howner]
  dsimp only
  rw [placeAttribute, hcount]

theorem takeAttribute_eq (h : a ∈ (d.node n).attributes) :
    d.takeAttribute n a =
      ((d.count.update n fun r => { r with attributes := r.attributes.erase a }).updateAttribute a
        fun r => { r with owner := none }) := by
  rw [takeAttribute, if_pos (List.contains_iff_mem.2 h)]

/-- Changing the list of one node and the owner of one attribute. -/
theorem reattributed_update (d : Document) (n : NodeId) (a : AttributeId)
    (f : List AttributeId → List AttributeId) (owner : Option NodeId) :
    Reattributed d ((d.count.update n fun r => { r with attributes := f r.attributes }).updateAttribute
      a fun r => { r with owner }) n a where
  size := size_nodes_update ..
  attributes := Array.size_modify ..
  node m := by
    have hnode : ∀ e : Document, (e.updateAttribute a fun r => { r with owner }).node m = e.node m :=
      fun _ => rfl
    rw [hnode, node_update]
    by_cases hm : m = n ∧ d.count.Has n
    · rw [if_pos hm]
      exact ⟨f (d.node m).attributes, rfl, fun hne => absurd hm.1 hne⟩
    · rw [if_neg hm]
      exact ⟨(d.node m).attributes, rfl, fun _ => rfl⟩
  attr b hb := by
    rw [attr_updateAttribute, if_neg fun h => hb h.1]
    rfl
  name := by
    rw [attr_updateAttribute]
    split <;> rfl
  groups := rfl
  cells := rfl
  notices := rfl

theorem attributes_update (hn : d.Has n) (f : List AttributeId → List AttributeId)
    (owner : Option NodeId) :
    (((d.count.update n fun r => { r with attributes := f r.attributes }).updateAttribute
      a fun r => { r with owner }).node n).attributes = f (d.node n).attributes := by
  show ((d.count.update n fun r => { r with attributes := f r.attributes }).node n).attributes = _
  rw [node_update_self d.count n _ hn]
  rfl

theorem attr_update_owner (ha : d.HasAttribute a) (f : List AttributeId → List AttributeId)
    (owner : Option NodeId) :
    ((d.count.update n fun r => { r with attributes := f r.attributes }).updateAttribute
      a fun r => { r with owner }).attr a = { d.attr a with owner } := by
  rw [attr_updateAttribute, if_pos ⟨rfl, ha⟩]
  rfl

/-- Putting an attribute on an element. -/
theorem owned_put (ho : d.Owned) (hn : d.Has n) (ha : d.HasAttribute a)
    (howner : (d.attr a).owner = none) :
    ((d.count.update n fun r => { r with attributes := r.attributes ++ [a] }).updateAttribute
      a fun r => { r with owner := some n }).Owned := by
  have hre := reattributed_update d n a (· ++ [a]) (some n)
  have hself := attributes_update (a := a) hn (· ++ [a]) (some n)
  have hattr := attr_update_owner (n := n) ha (· ++ [a]) (some n)
  have hfree : ∀ m, a ∉ (d.node m).attributes := by
    intro m hm
    rw [ho.owner hm] at howner
    cases howner
  refine ⟨fun {m b} hb => ?_, fun m => ?_⟩
  · by_cases hm : m = n
    · rw [hm, hself, List.mem_append, List.mem_singleton] at hb
      rcases hb with hb | rfl
      · rw [hre.attr b fun hba => hfree n (hba ▸ hb), hm]
        exact ho.owner hb
      · rw [hattr, hm]
    · rw [hre.node_of_ne hm] at hb
      rw [hre.attr b fun hba => hfree m (hba ▸ hb)]
      exact ho.owner hb
  · by_cases hm : m = n
    · rw [hm, hself, List.nodup_append]
      refine ⟨ho.nodup n, List.nodup_singleton a, ?_⟩
      rintro b hb c hc rfl
      exact hfree n (List.mem_singleton.1 hc ▸ hb)
    · rw [hre.node_of_ne hm]
      exact ho.nodup m

/-- Taking an attribute off an element. -/
theorem owned_take (ho : d.Owned) (h : a ∈ (d.node n).attributes) :
    ((d.count.update n fun r => { r with attributes := r.attributes.erase a }).updateAttribute
      a fun r => { r with owner := none }).Owned := by
  have hn : d.Has n := by
    by_contra hn
    rw [node_of_not_has hn] at h
    cases h
  have hre := reattributed_update d n a (·.erase a) none
  have hself := attributes_update (a := a) hn (·.erase a) none
  refine ⟨fun {m b} hb => ?_, fun m => ?_⟩
  · by_cases hm : m = n
    · rw [hm, hself] at hb
      have hba : b ≠ a := by
        rintro rfl
        exact (ho.nodup n).not_mem_erase hb
      rw [hre.attr b hba, hm]
      exact ho.owner (List.mem_of_mem_erase hb)
    · rw [hre.node_of_ne hm] at hb
      have hba : b ≠ a := by
        rintro rfl
        exact hm (Option.some.inj ((ho.owner hb).symm.trans (ho.owner h)))
      rw [hre.attr b hba]
      exact ho.owner hb
  · by_cases hm : m = n
    · rw [hm, hself]
      exact (ho.nodup n).erase a
    · rw [hre.node_of_ne hm]
      exact ho.nodup m

theorem Reattributed.trans {d'' : Document} (h : Reattributed d d' n a)
    (h' : Reattributed d' d'' n a) : Reattributed d d'' n a where
  size := h'.size.trans h.size
  attributes := h'.attributes.trans h.attributes
  node m := by
    obtain ⟨as, hm, has⟩ := h.node m
    obtain ⟨as', hm', has'⟩ := h'.node m
    refine ⟨as', by rw [hm', hm], fun hne => ?_⟩
    rw [has' hne, hm]
    exact has hne
  attr b hb := (h'.attr b hb).trans (h.attr b hb)
  name := h'.name.trans h.name
  groups := h'.groups.trans h.groups
  cells := h'.cells.trans h.cells
  notices := h'.notices.trans h.notices

/-- An attribute that is on no element gets a value and is put on an element. -/
theorem shown_attribute (hs : d.Sound) (hn : d.Has n) (helement : d.isElement n = true)
    (ha : d.HasAttribute a) (howner : (d.attr a).owner = none)
    (hname : ∀ b ∈ (d.node n).attributes, (d.attr b).name ≠ (d.attr a).name) (value : String) :
    ((d.setAttributeValue a value).putAttribute n a).Sound ∧
      Reattributed d ((d.setAttributeValue a value).putAttribute n a) n a ∧
      ((d.setAttributeValue a value).putAttribute n a).attr a = ⟨(d.attr a).name, value, some n⟩ ∧
      (((d.setAttributeValue a value).putAttribute n a).node n).attributes
        = (d.node n).attributes ++ [a] := by
  have hvalue : (d.setAttributeValue a value).attr a = { d.attr a with value } :=
    attr_setAttributeValue ha
  have hset := reattributed_setAttributeValue d n a value
  have hfree : ∀ b ∈ (d.node n).attributes, b ≠ a := by
    rintro b hb rfl
    exact hname b hb rfl
  have hput := putAttribute_eq (d := d.setAttributeValue a value) (n := n) (a := a) helement
    (by rw [hvalue]; exact howner) fun b hb => by
      rw [hset.name, hset.attr b (hfree b hb)]
      exact hname b hb
  have hown : ((d.setAttributeValue a value).attr a).owner = none := by
    rw [hvalue]
    exact howner
  have hre := reattributed_update (d.setAttributeValue a value) n a (· ++ [a]) (some n)
  have ha' : (d.setAttributeValue a value).HasAttribute a := by
    rw [HasAttribute, hset.attributes]
    exact ha
  rw [hput]
  refine ⟨⟨hre.forest (hs.setAttributeValue a value).forest,
    owned_put (hs.setAttributeValue a value).owned hn ha' hown⟩, hset.trans hre, ?_, ?_⟩
  · rw [attr_update_owner ha' (· ++ [a]) (some n), hvalue]
  · exact attributes_update (a := a) hn (· ++ [a]) (some n)

end LiveMarkup.Document
