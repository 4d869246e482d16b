import LiveMarkup.Proofs.Document.Edits
import LiveMarkup.Proofs.Document.Growing
import LiveMarkup.Proofs.Document.Shifting
import LiveMarkup.Proofs.Markup.Regularity
/-!
# Who an attribute belongs to

Which element an attribute is on is kept twice, in the list of the element and as the owner of the attribute.
The two never disagree, and neither do two attributes of an element have one name: an attribute that is put on
an element takes the place of the one of its name, and a name that is looked up first is spelled as the element
spells it (`Document.Labelled`). Every call keeps this, those that are refused too, so it is true of whatever
is made by calls (`Document.called_labelled`).

Names are what is compared when an attribute is put on an element, and identities when it is taken off. That an
element has a name once is what makes the two agree.
-/

namespace LiveMarkup.Document

open Markup (Tag Tree Namespace)

variable {d d' : Document} {n m : NodeId} {a b : AttributeId} {name value : String}

/-- The names of the attributes on a node, in order. -/
def attributeNames (d : Document) (n : NodeId) : List String :=
  (d.node n).attributes.map fun a => (d.attr a).name

/-- What lists an attribute is its owner and an element, and has no two attributes of one name. -/
structure Labelled (d : Document) : Prop where
  mem_iff : ∀ {n a}, a ∈ (d.node n).attributes ↔ (d.attr a).owner = some n
  distinct : ∀ n, (d.attributeNames n).Nodup
  element : ∀ {n}, (d.node n).attributes ≠ [] → d.isElement n = true

theorem isElement_giveAttribute (d : Document) (n : NodeId) (name value : String) (m : NodeId) :
    (d.giveAttribute n name value).isElement m = d.isElement m := by
  have hkind : (d.giveAttribute n name value).kind m = d.kind m := by
    rw [kind, node_giveAttribute, kind]
    split <;> rfl
  rw [isElement, hkind, isElement]

theorem map_fst_attributePairs (d : Document) (n : NodeId) :
    (d.attributePairs n).map Prod.fst = d.attributeNames n := by
  rw [attributePairs, List.map_map]
  rfl

theorem has_of_mem_attributes (h : a ∈ (d.node n).attributes) : d.Has n := by
  by_contra hn
  rw [node_of_not_has hn] at h
  cases h

namespace Reattributed

variable (h : Reattributed d d' n a)

include h

theorem nameOf (b : AttributeId) : (d'.attr b).name = (d.attr b).name := by
  by_cases hb : b = a
  · rw [hb]
    exact h.name
  · rw [h.attr b hb]

theorem isElement (m : NodeId) : d'.isElement m = d.isElement m := by
  rw [Document.isElement, h.kind, Document.isElement]

end Reattributed

/-- The attribute `a` has taken the place of `b` on `n`. -/
structure Displaced (d d' : Document) (n : NodeId) (a b : AttributeId) : Prop where
  list : (d'.node n).attributes = (d.node n).attributes.map fun c => if c = b then a else c
  others : ∀ m, m ≠ n → (d'.node m).attributes = (d.node m).attributes
  owner : (d'.attr a).owner = some n
  displaced : (d'.attr b).owner = none
  name : ∀ c, (d'.attr c).name = (d.attr c).name
  attr : ∀ c, c ≠ a → c ≠ b → d'.attr c = d.attr c
  isElement : ∀ m, d'.isElement m = d.isElement m

namespace Labelled

theorem nodup (hl : d.Labelled) (n : NodeId) : (d.node n).attributes.Nodup :=
  (hl.distinct n).of_map _

theorem owned (hl : d.Labelled) : d.Owned :=
  ⟨hl.mem_iff.1, hl.nodup⟩

/-- Attributes of one name on one node are the same. -/
theorem eq_of_name (hl : d.Labelled) (ha : a ∈ (d.node n).attributes) (hb : b ∈ (d.node n).attributes)
    (hname : (d.attr a).name = (d.attr b).name) : a = b :=
  List.inj_on_of_nodup_map (hl.distinct n) ha hb hname

theorem empty : Document.empty.Labelled where
  mem_iff {n a} := by
    have hnode : Document.empty.node n = default := rfl
    have hattr : Document.empty.attr a = default := rfl
    rw [hnode, hattr]
    constructor <;> intro h <;> cases h
  distinct _ := List.nodup_nil
  element h := absurd rfl h

/-- Neither lists nor owners change, nor the names of what is listed. -/
theorem congr (hl : d.Labelled) (hattributes : ∀ n, (d'.node n).attributes = (d.node n).attributes)
    (hname : ∀ n, ∀ a ∈ (d.node n).attributes, (d'.attr a).name = (d.attr a).name)
    (howner : ∀ a, (d'.attr a).owner = (d.attr a).owner)
    (helement : ∀ n, (d.node n).attributes ≠ [] → d'.isElement n = d.isElement n) : d'.Labelled where
  mem_iff {n a} := by
    rw [hattributes, howner]
    exact hl.mem_iff
  distinct n := by
    rw [attributeNames, hattributes, List.map_congr_left (hname n)]
    exact hl.distinct n
  element {n} hn := by
    rw [hattributes] at hn
    rw [helement n hn]
    exact hl.element hn

theorem relinked (hl : d.Labelled) (h : Relinked d d') : d'.Labelled :=
  hl.congr h.attributesOf (fun n a _ => by rw [h.attr]) (fun a => by rw [h.attr]) fun n _ => h.isElement n

/-- The list of one node changes, and the owners with it. -/
theorem relist (hl : d.Labelled) (hother : ∀ m, m ≠ n → (d'.node m).attributes = (d.node m).attributes)
    (howner : ∀ m, m ≠ n → ∀ a, (d'.attr a).owner = some m ↔ (d.attr a).owner = some m)
    (hname : ∀ m, m ≠ n → ∀ a ∈ (d.node m).attributes, (d'.attr a).name = (d.attr a).name)
    (hkind : ∀ m, d'.isElement m = d.isElement m)
    (hmem : ∀ a, a ∈ (d'.node n).attributes ↔ (d'.attr a).owner = some n)
    (hdistinct : (d'.attributeNames n).Nodup)
    (helement : (d'.node n).attributes ≠ [] → d.isElement n = true) : d'.Labelled where
  mem_iff {m a} := by
    by_cases hm : m = n
    · rw [hm]
      exact hmem a
    · rw [hother m hm, howner m hm]
      exact hl.mem_iff
  distinct m := by
    by_cases hm : m = n
    · rw [hm]
      exact hdistinct
    · rw [attributeNames, hother m hm, List.map_congr_left (hname m hm)]
      exact hl.distinct m
  element {m} h := by
    rw [hkind]
    by_cases hm : m = n
    · rw [hm] at h ⊢
      exact helement h
    · rw [hother m hm] at h
      exact hl.element h

/-! ### Making nodes and attributes -/

theorem create (hl : d.Labelled) (kind : NodeKind) (data : String) : (d.create kind data).2.Labelled := by
  have hnew : (d.node d.next).attributes = [] := by
    rw [node_of_not_has not_has_next]
    rfl
  refine hl.congr (fun n => ?_) (fun _ _ _ => rfl) (fun _ => rfl) fun n hn => ?_
  · rw [node_create]
    split
    · rename_i hn
      rw [hn, hnew]
      rfl
    · rfl
  · have hne : n ≠ d.next := by
      rintro rfl
      exact hn hnew
    rw [isElement, Document.kind, node_create, if_neg hne, isElement, Document.kind]

theorem createAttribute (hl : d.Labelled) (name : String) : (d.createAttribute name).2.Labelled := by
  refine hl.congr (fun _ => rfl) (fun n a ha => ?_) (fun a => ?_) fun _ _ => rfl
  · rw [attr_createAttribute, if_neg (hl.owned.hasAttribute ha).ne_next]
  · rw [attr_createAttribute]
    split
    · rename_i ha
      rw [ha, attr_of_not_has not_hasAttribute_next]
      rfl
    · rfl

theorem attributeNames_giveAttribute (hl : d.Labelled) (hn : d.Has n) (name value : String) :
    (d.giveAttribute n name value).attributeNames n = d.attributeNames n ++ [name] := by
  rw [← map_fst_attributePairs, pairs_giveAttribute (hl.owned.listed _) hn, List.map_append, map_fst_attributePairs,
    List.map_singleton]

/-- A name that an element does not have yet is given to it. -/
theorem giveAttribute (hl : d.Labelled) (hn : d.Has n) (helement : d.isElement n = true)
    (hname : name ∉ d.attributeNames n) (value : String) : (d.giveAttribute n name value).Labelled := by
  have hself : ((d.giveAttribute n name value).node n).attributes
      = (d.node n).attributes ++ [d.nextAttribute] := by
    rw [node_giveAttribute, if_pos ⟨rfl, hn⟩]
  have hother (m : NodeId) (hm : m ≠ n) : (d.giveAttribute n name value).node m = d.node m := by
    rw [node_giveAttribute, if_neg fun h => hm h.1]
  have hnew : (d.attr d.nextAttribute).owner = none := by
    rw [attr_of_not_has not_hasAttribute_next]
    rfl
  refine hl.relist (n := n) (fun m hm => by rw [hother m hm]) (fun m hm a => ?_) (fun m hm a ha => ?_)
    (isElement_giveAttribute d n name value) (fun a => ?_) ?_ fun _ => helement
  · rw [attr_giveAttribute]
    split
    · rename_i ha
      rw [ha, hnew]
      exact ⟨fun h => absurd (Option.some.inj h).symm hm, fun h => by cases h⟩
    · rfl
  · rw [attr_giveAttribute, if_neg (hl.owned.hasAttribute ha).ne_next]
  · rw [hself, List.mem_append, List.mem_singleton, attr_giveAttribute]
    split
    · rename_i ha
      exact ⟨fun _ => rfl, fun _ => .inr ha⟩
    · rename_i ha
      exact ⟨fun h => hl.mem_iff.1 (h.resolve_right ha), fun h => .inl (hl.mem_iff.2 h)⟩
  · rw [hl.attributeNames_giveAttribute hn]
    refine List.nodup_append.2 ⟨hl.distinct n, List.nodup_singleton _, ?_⟩
    rintro x hx y hy rfl
    rw [List.mem_singleton.1 hy] at hx
    exact hname hx

theorem giveAttributes (hl : d.Labelled) (hn : d.Has n) (helement : d.isElement n = true)
    {pairs : List (String × String)} (hnodup : (d.attributeNames n ++ pairs.map Prod.fst).Nodup) :
    (pairs.foldl (fun d a => d.giveAttribute n a.1 a.2) d).Labelled := by
  induction pairs generalizing d with
  | nil => exact hl
  | cons a rest ih =>
    have hnames := hl.attributeNames_giveAttribute hn a.1 a.2
    have hgiven : a.1 ∉ d.attributeNames n := fun h =>
      (List.nodup_append.1 hnodup).2.2 _ h _ (List.mem_cons_self ..) rfl
    refine ih (hl.giveAttribute hn helement hgiven a.2) ?_ ?_ ?_
    · rw [Has]
      exact Nat.lt_of_lt_of_eq hn (size_nodes_update ..).symm
    · rw [isElement_giveAttribute]
      exact helement
    · rw [hnames, List.append_assoc]
      exact hnodup

/-- A node that is made with some attributes, which are none unless it is an element. -/
theorem made (hl : d.Labelled) {kind : NodeKind} (data : String) {pairs : List (String × String)}
    (helement : pairs ≠ [] → kind matches .element ..) (hnodup : (pairs.map Prod.fst).Nodup) :
    (pairs.foldl (fun d' a => d'.giveAttribute d.next a.1 a.2) (d.create kind data).2).Labelled := by
  rcases eq_or_ne pairs [] with rfl | hne
  · exact hl.create kind data
  · have hcreated : (d.create kind data).2.node d.next = Node.alone kind data := by
      rw [node_create, if_pos rfl]
    refine (hl.create kind data).giveAttributes ?_ ?_ ?_
    · exact Nat.lt_of_lt_of_eq (Nat.lt_succ_self _) (Array.size_push _).symm
    · rw [isElement, kind_create_next]
      exact helement hne
    · rw [attributeNames, hcreated]
      exact hnodup

theorem createElement (hl : d.Labelled) {tag : Tag} (hnodup : (tag.attributes.map Prod.fst).Nodup) :
    (d.createElement tag).2.Labelled :=
  hl.made "" (fun _ => rfl) hnodup

theorem link (hl : d.Labelled) (p n : NodeId) : (d.link p n).Labelled := by
  refine (hl.relinked (relinked_update d p _ fun _ => ?_)).relinked (relinked_update _ n _ fun _ => ?_) <;> rfl

theorem addTrees :
    (∀ (t : Tree) (outer : Namespace), t.IsRegular outer → ∀ (p : NodeId) (d : Document), d.Labelled →
        (addTree p d t).Labelled) ∧
      ∀ (ts : List Tree) (outer : Namespace), Markup.EachIsRegular outer ts → ∀ (p : NodeId) (d : Document),
        d.Labelled → (addContent p d ts).Labelled := by
  refine Tree.induct ?_ ?_ ?_ ?_ ?_
  · rintro tag children ih outer ⟨htag, -, -, hchildren⟩ p d hl
    rw [addTree]
    exact ih _ hchildren _ _ ((hl.createElement htag.nodup).link _ _)
  · intro data outer _ p d hl
    exact (hl.create .text data).link _ _
  · intro data outer _ p d hl
    exact (hl.create .comment data).link _ _
  · intro outer _ p d hl
    exact hl
  · rintro t ts iht ihts outer ⟨ht, hts⟩ p d hl
    rw [addContent]
    exact ihts _ hts _ _ (iht _ ht _ _ hl)

theorem parse (hl : d.Labelled) (space : Namespace) (markup : String) : (d.parse space markup).2.Labelled :=
  addTrees.2 _ _ (Markup.areRegular_parse space markup).each _ _ (hl.create .fragment "")

/-- A copy has its own attributes, with the names of those of the original. -/
theorem copy (hl : d.Labelled) (n : NodeId) : (d.copy n).2.Labelled := by
  refine hl.made _ (fun hne => hl.element fun h => hne ?_) ?_
  · rw [attributePairs, h]
    rfl
  · rw [map_fst_attributePairs]
    exact hl.distinct n

theorem copyLevels (hl : d.Labelled) (fuel : Nat) (n : NodeId) : (copyLevels fuel d n).2.Labelled := by
  induction fuel generalizing d n with
  | zero => exact hl.copy n
  | succ fuel ih =>
    exact List.foldlRecOn _ _ (hl.copy n) fun d' hl' c _ => (ih hl' c).link _ _

theorem copyTree (hl : d.Labelled) (n : NodeId) : (d.copyTree n).2.Labelled :=
  hl.copyLevels _ n

/-! ### Putting attributes on elements and taking them off -/

theorem setAttributeValue (hl : d.Labelled) (a : AttributeId) (value : String) :
    (d.setAttributeValue a value).Labelled := by
  refine hl.congr (fun _ => rfl) (fun n b _ => ?_) (fun b => ?_) fun _ _ => rfl <;>
  · rw [Document.setAttributeValue, attr_updateAttribute]
    split <;> rfl

/-- Off the element that it is on, an attribute has no owner. -/
theorem take (hl : d.Labelled) (h : a ∈ (d.node n).attributes) (hre : Reattributed d d' n a)
    (hself : (d'.node n).attributes = (d.node n).attributes.erase a) (howner : (d'.attr a).owner = none) :
    d'.Labelled := by
  refine hl.relist (n := n) (fun m hm => by rw [hre.node_of_ne hm]) (fun m hm b => ?_)
    (fun m _ b _ => hre.nameOf b) hre.isElement (fun b => ?_) ?_ fun _ => hl.element (List.ne_nil_of_mem h)
  · by_cases hb : b = a
    · rw [hb, howner, hl.mem_iff.1 h]
      exact ⟨(fun h => by cases h), fun h => absurd (Option.some.inj h).symm hm⟩
    · rw [hre.attr b hb]
  · rw [hself]
    by_cases hb : b = a
    · rw [hb, howner]
      exact ⟨fun h => absurd h (hl.nodup n).not_mem_erase, fun h => by cases h⟩
    · rw [hre.attr b hb, List.mem_erase_of_ne hb]
      exact hl.mem_iff
  · rw [attributeNames, hself, List.map_congr_left fun b _ => hre.nameOf b]
    exact (hl.distinct n).sublist (List.erase_sublist.map _)

theorem takeAttribute (hl : d.Labelled) (n : NodeId) (a : AttributeId) : (d.takeAttribute n a).Labelled := by
  by_cases h : a ∈ (d.node n).attributes
  · have hn : d.Has n := has_of_mem_attributes h
    have ha : d.HasAttribute a := hl.owned.hasAttribute h
    rw [takeAttribute_eq h]
    refine hl.take h (reattributed_update d n a (·.erase a) none) (attributes_update hn (·.erase a) none) ?_
    rw [attr_update_owner ha (·.erase a) none]
  · rw [Document.takeAttribute, if_neg fun hc => h (List.contains_iff_mem.1 hc)]
    exact hl.congr (fun _ => rfl) (fun _ _ _ => rfl) (fun _ => rfl) fun _ _ => rfl

/-- An attribute on no element is put on one behind all others. -/
theorem append (hl : d.Labelled) (helement : d.isElement n = true) (hfree : (d.attr a).owner = none)
    (hname : (d.attr a).name ∉ d.attributeNames n) (hre : Reattributed d d' n a)
    (hself : (d'.node n).attributes = (d.node n).attributes ++ [a]) (howner : (d'.attr a).owner = some n) :
    d'.Labelled := by
  refine hl.relist (n := n) (fun m hm => by rw [hre.node_of_ne hm]) (fun m hm b => ?_)
    (fun m _ b _ => hre.nameOf b) hre.isElement (fun b => ?_) ?_ fun _ => helement
  · by_cases hb : b = a
    · rw [hb, howner, hfree]
      exact ⟨fun h => absurd (Option.some.inj h).symm hm, fun h => by cases h⟩
    · rw [hre.attr b hb]
  · rw [hself, List.mem_append, List.mem_singleton]
    by_cases hb : b = a
    · rw [hb, howner]
      exact ⟨fun _ => rfl, fun _ => .inr rfl⟩
    · rw [hre.attr b hb, or_iff_left hb]
      exact hl.mem_iff
  · rw [attributeNames, hself, List.map_congr_left fun b _ => hre.nameOf b, List.map_append, List.map_singleton]
    refine List.nodup_append.2 ⟨hl.distinct n, List.nodup_singleton _, ?_⟩
    rintro x hx y hy rfl
    rw [List.mem_singleton.1 hy] at hx
    exact hname hx

/-- An attribute takes the place of another one of its name. -/
theorem displace (hl : d.Labelled) (hb : b ∈ (d.node n).attributes) (hname : (d.attr b).name = (d.attr a).name)
    (hfree : (d.attr a).owner = none) (h : Displaced d d' n a b) : d'.Labelled := by
  have hne : b ≠ a := by
    rintro rfl
    rw [hl.mem_iff.1 hb] at hfree
    cases hfree
  have hnames : (d'.node n).attributes.map (fun c => (d'.attr c).name) = d.attributeNames n := by
    rw [h.list, List.map_map, attributeNames]
    refine List.map_congr_left fun c hc => ?_
    show (d'.attr (if c = b then a else c)).name = _
    split
    · rename_i hcb
      rw [h.name, hcb, hname]
    · rw [h.name]
  refine hl.relist (n := n) (fun m hm => h.others m hm) (fun m hm c => ?_) (fun m _ c _ => h.name c) h.isElement
    (fun c => ?_) ?_ fun _ => hl.element (List.ne_nil_of_mem hb)
  · by_cases hca : c = a
    · rw [hca, h.owner, hfree]
      exact ⟨fun h => absurd (Option.some.inj h).symm hm, fun h => by cases h⟩
    · by_cases hcb : c = b
      · rw [hcb, h.displaced, hl.mem_iff.1 hb]
        exact ⟨(fun h => by cases h), fun h => absurd (Option.some.inj h).symm hm⟩
      · rw [h.attr c hca hcb]
  · rw [h.list, List.mem_map]
    by_cases hca : c = a
    · rw [hca, h.owner]
      exact ⟨fun _ => rfl, fun _ => ⟨b, hb, if_pos rfl⟩⟩
    · have hmem : (∃ e ∈ (d.node n).attributes, (if e = b then a else e) = c) ↔
          c ∈ (d.node n).attributes ∧ c ≠ b := by
        constructor
        · rintro ⟨e, he, rfl⟩
          by_cases heb : e = b
          · exact absurd (if_pos heb) hca
          · rw [if_neg heb]
            exact ⟨he, heb⟩
        · rintro ⟨hc, hcb⟩
          exact ⟨c, hc, if_neg hcb⟩
      rw [hmem]
      by_cases hcb : c = b
      · rw [hcb, h.displaced]
        exact ⟨fun h => absurd rfl h.2, fun h => by cases h⟩
      · rw [h.attr c hca hcb, and_iff_left hcb]
        exact hl.mem_iff
  · rw [attributeNames, hnames]
    exact hl.distinct n

end Labelled

/-- An attribute on no element takes the place of the one of its name. -/
theorem displaced_putAttribute (hl : d.Labelled) (ha : d.HasAttribute a) (helement : d.isElement n = true)
    (hfree : (d.attr a).owner = none) (hb : b ∈ (d.node n).attributes) (hname : (d.attr b).name = (d.attr a).name) :
    Displaced d (d.putAttribute n a) n a b := by
  have hn : d.Has n := has_of_mem_attributes hb
  have hfind : (d.node n).attributes.find? (fun c => (d.attr c).name == (d.attr a).name) = some b := by
    cases hfind : (d.node n).attributes.find? fun c => (d.attr c).name == (d.attr a).name with
    | none => exact absurd (beq_iff_eq.2 hname) (List.find?_eq_none.1 hfind b hb)
    | some c =>
      have hc : (d.attr c).name = (d.attr a).name := by simpa using List.find?_some hfind
      rw [hl.eq_of_name (List.mem_of_find?_eq_some hfind) hb (hc.trans hname.symm)]
  have hne : b ≠ a := by
    rintro rfl
    rw [hl.mem_iff.1 hb] at hfree
    cases hfree
  -- The displaced attribute loses its owner first, and then the other one gets it.
  let displacing := (d.count.update n fun r =>
    { r with attributes := r.attributes.map fun c => if c = b then a else c }).updateAttribute b
      fun r => { r with owner := none }
  have hput : d.putAttribute n a = displacing.updateAttribute a fun r => { r with owner := some n } := by
    have hcount : (d.count.node n).attributes.find?
        (fun c => (d.count.attr c).name == (d.count.attr a).name) = some b := hfind
    rw [putAttribute, if_pos helement, hfree]
    dsimp only
    rw [placeAttribute, hcount]
  have hre : Reattributed d displacing n b :=
    reattributed_update d n b (List.map fun c => if c = b then a else c) none
  have hself : (displacing.node n).attributes = (d.node n).attributes.map fun c => if c = b then a else c :=
    attributes_update hn (List.map fun c => if c = b then a else c) none
  have hdisplaced : displacing.attr b = { d.attr b with owner := none } :=
    attr_update_owner (hl.owned.hasAttribute hb) (List.map fun c => if c = b then a else c) none
  have ha' : displacing.HasAttribute a := by
    rw [HasAttribute, hre.attributes]
    exact ha
  have hother (c : AttributeId) (hc : c ≠ a) :
      (displacing.updateAttribute a fun r => { r with owner := some n }).attr c = displacing.attr c := by
    rw [attr_updateAttribute, if_neg fun h => hc h.1]
  have howner : (displacing.updateAttribute a fun r => { r with owner := some n }).attr a
      = { displacing.attr a with owner := some n } := by
    rw [attr_updateAttribute, if_pos ⟨rfl, ha'⟩]
  rw [hput]
  refine ⟨hself, fun m hm => congrArg Node.attributes (hre.node_of_ne hm), by rw [howner], ?_, fun c => ?_,
    fun c hca hcb => (hother c hca).trans (hre.attr c hcb), hre.isElement⟩
  · rw [hother b hne, hdisplaced]
  · by_cases hca : c = a
    · rw [hca, howner, ← hre.nameOf a]
    · rw [hother c hca]
      exact hre.nameOf c

namespace Labelled

theorem note (hl : d.Labelled) (notice : Notice) : (d.note notice).Labelled :=
  hl.relinked (relinked_note d notice)

theorem putAttribute (hl : d.Labelled) (hn : d.Has n) (ha : d.HasAttribute a) : (d.putAttribute n a).Labelled := by
  by_cases helement : d.isElement n = true
  · cases hfree : (d.attr a).owner with
    | some owner =>
      rw [Document.putAttribute, if_pos helement, hfree]
      dsimp only
      split
      · exact hl
      · exact hl.note _
    | none =>
      by_cases hname : (d.attr a).name ∈ d.attributeNames n
      · obtain ⟨b, hb, hname⟩ := List.mem_map.1 hname
        exact hl.displace hb hname hfree (displaced_putAttribute hl ha helement hfree hb hname)
      · rw [putAttribute_eq helement hfree fun b hb h => hname (List.mem_map.2 ⟨b, hb, h⟩)]
        refine hl.append helement hfree hname (reattributed_update d n a (· ++ [a]) (some n))
          (attributes_update hn (· ++ [a]) (some n)) ?_
        rw [attr_update_owner ha (· ++ [a]) (some n)]
  · rw [Document.putAttribute, if_neg helement]
    exact hl.note _

theorem setAttribute (hl : d.Labelled) (hn : d.Has n) (name value : String) :
    (d.setAttribute n name value).Labelled := by
  unfold Document.setAttribute
  split
  · exact hl.setAttributeValue _ value
  · refine ((hl.createAttribute (d.spelled n name)).setAttributeValue _ value).putAttribute hn ?_
    rw [HasAttribute, (reattributed_setAttributeValue _ n _ value).attributes]
    exact Nat.lt_of_lt_of_eq (Nat.lt_succ_self _) (Array.size_push _).symm

theorem removeAttribute (hl : d.Labelled) (n : NodeId) (name : String) : (d.removeAttribute n name).Labelled := by
  unfold Document.removeAttribute
  split
  · exact hl.takeAttribute n _
  · exact hl

theorem count (hl : d.Labelled) : d.count.Labelled :=
  hl.congr (fun _ => rfl) (fun _ _ _ => rfl) (fun _ => rfl) fun _ _ => rfl

theorem setData (hl : d.Labelled) (n : NodeId) (data : String) : (d.setData n data).Labelled := by
  have hnode (m : NodeId) : ∃ data', (d.setData n data).node m = { d.node m with data := data' } := by
    rw [Document.setData, node_update]
    split
    · exact ⟨data, rfl⟩
    · exact ⟨_, rfl⟩
  refine hl.congr (fun m => ?_) (fun _ _ _ => rfl) (fun _ => rfl) fun m _ => ?_ <;> obtain ⟨data', hm⟩ := hnode m
  · rw [hm]
  · rw [isElement, kind, hm, isElement, kind]

theorem setText (hl : d.Labelled) (n : NodeId) (text : String) : (d.setText n text).Labelled := by
  unfold Document.setText
  split
  · exact hl.setData n text
  · have hcleared := hl.count.relinked (shifts_clear d.count n []).relinked
    dsimp only
    split_ifs
    · exact hcleared
    · exact (hcleared.create .text text).relinked (relinked_attach ..)

theorem edit (hl : d.Labelled) (e : Edit) : (e.apply d).Labelled := by
  cases e with
  | create kind data => exact hl.create kind data
  | parse space markup => exact hl.parse space markup
  | copy n => exact hl.copyTree n
  | insert p n reference => exact hl.relinked (shifts_insertBefore (List.mem_singleton_self p) d n reference).relinked
  | append p n => exact hl.relinked (shifts_insertBefore (List.mem_singleton_self p) d n none).relinked
  | remove p c => exact hl.relinked (shifts_removeChild d p c []).relinked
  | replace p n c => exact hl.relinked (shifts_replaceChild (List.mem_singleton_self p) d n c).relinked
  | setText n text => exact hl.setText n text

end Labelled

/-! ### Any calls -/

/-- A call that makes nodes or attributes, moves them, or gives an attribute a value. -/
inductive Call where
  | edit (e : Edit)
  | createAttribute (name : String)
  | createAttributeFor (n : NodeId) (name : String)
  | setAttributeValue (a : AttributeId) (value : String)
  | putAttribute (n : NodeId) (a : AttributeId)
  | takeAttribute (n : NodeId) (a : AttributeId)
  | setAttribute (n : NodeId) (name value : String)
  | removeAttribute (n : NodeId) (name : String)
deriving Repr

namespace Call

/-- The document after a call. -/
def apply (d : Document) : Call → Document
  | edit e => e.apply d
  | createAttribute name => (d.createAttribute name).2
  | createAttributeFor n name => (d.createAttributeFor n name).2
  | setAttributeValue a value => d.setAttributeValue a value
  | putAttribute n a => d.putAttribute n a
  | takeAttribute n a => d.takeAttribute n a
  | setAttribute n name value => d.setAttribute n name value
  | removeAttribute n name => d.removeAttribute n name

/-- The nodes that a call is made with. -/
def nodes : Call → List NodeId
  | edit e => e.arguments
  | createAttribute _ => []
  | createAttributeFor n _ => [n]
  | setAttributeValue _ _ => []
  | putAttribute n _ => [n]
  | takeAttribute n _ => [n]
  | setAttribute n _ _ => [n]
  | removeAttribute n _ => [n]

/-- The attributes that a call is made with. -/
def attributes : Call → List AttributeId
  | setAttributeValue a _ => [a]
  | putAttribute _ a => [a]
  | takeAttribute _ a => [a]
  | _ => []

end Call

/-- The document after some calls. -/
def called (d : Document) (calls : List Call) : Document :=
  calls.foldl Call.apply d

/-- Each of some calls is made with nodes and attributes that are there when it is made. -/
def Admits (d : Document) : List Call → Prop
  | [] => True
  | c :: rest => ((∀ n ∈ c.nodes, d.Has n) ∧ ∀ a ∈ c.attributes, d.HasAttribute a) ∧ (c.apply d).Admits rest

instance decidableAdmits : (d : Document) → (calls : List Call) → Decidable (d.Admits calls)
  | _, [] => isTrue trivial
  | d, c :: rest =>
    have := decidableAdmits (c.apply d) rest
    inferInstanceAs (Decidable (_ ∧ _))

/-- One call with nodes and attributes that are there. -/
theorem Labelled.apply (hl : d.Labelled) {c : Call} (hn : ∀ n ∈ c.nodes, d.Has n)
    (ha : ∀ a ∈ c.attributes, d.HasAttribute a) : (c.apply d).Labelled := by
  cases c with
  | edit e => exact hl.edit e
  | createAttribute name => exact hl.createAttribute name
  | createAttributeFor n name => exact hl.createAttribute _
  | setAttributeValue a value => exact hl.setAttributeValue a value
  | putAttribute n a =>
    exact hl.putAttribute (hn n (List.mem_singleton_self n)) (ha a (List.mem_singleton_self a))
  | takeAttribute n a => exact hl.takeAttribute n a
  | setAttribute n name value => exact hl.setAttribute (hn n (List.mem_singleton_self n)) name value
  | removeAttribute n name => exact hl.removeAttribute n name

/-- Any calls one after another. -/
theorem Labelled.called {calls : List Call} (hl : d.Labelled) (h : d.Admits calls) :
    (d.called calls).Labelled := by
  induction calls generalizing d with
  | nil => exact hl
  | cons c rest ih => exact ih (hl.apply h.1.1 h.1.2) h.2

/-- Whatever calls a document has been made by, an attribute is listed by the element that is its owner, once,
and by nothing else; an element has no two attributes of one name, and what is no element has none. If an
attribute on no element is put on one that has an attribute of its name, then it takes the place of that one,
which has no owner afterwards and is listed nowhere. -/
theorem called_labelled {calls : List Call} (h : Document.empty.Admits calls) :
    let d := Document.empty.called calls
    (∀ n a, a ∈ (d.node n).attributes ↔ (d.attr a).owner = some n) ∧
      (∀ n m a, a ∈ (d.node n).attributes → a ∈ (d.node m).attributes → n = m) ∧
      (∀ n, (d.node n).attributes.Nodup) ∧
      (∀ n, ((d.node n).attributes.map fun a => (d.attr a).name).Nodup) ∧
      (∀ n, (d.node n).attributes ≠ [] → d.isElement n = true) ∧
      ∀ n a b, d.isElement n = true → d.HasAttribute a → (d.attr a).owner = none →
        b ∈ (d.node n).attributes → (d.attr b).name = (d.attr a).name →
          let d' := Call.apply d (.putAttribute n a)
          (d'.node n).attributes = (d.node n).attributes.map (fun c => if c = b then a else c) ∧
            (d'.attr a).owner = some n ∧ (d'.attr b).owner = none ∧ ∀ m, b ∉ (d'.node m).attributes := by
  intro d
  have hl : d.Labelled := Labelled.empty.called h
  refine ⟨fun n a => hl.mem_iff, ?_, hl.nodup, hl.distinct, fun n => hl.element, ?_⟩
  · intro n m a hn hm
    exact Option.some.inj ((hl.mem_iff.1 hn).symm.trans (hl.mem_iff.1 hm))
  · intro n a b helement ha hfree hb hname d'
    have hdisplaced : Displaced d d' n a b := displaced_putAttribute hl ha helement hfree hb hname
    have hl' : d'.Labelled := hl.putAttribute (has_of_mem_attributes hb) ha
    refine ⟨hdisplaced.list, hdisplaced.owner, hdisplaced.displaced, fun m hm => ?_⟩
    have howner := hl'.mem_iff.1 hm
    rw [hdisplaced.displaced] at howner
    cases howner

/-- Calls many of which are refused or find nothing: names in other letters, on an SVG element as well, an
attribute that is put on a second element or on a text, one that displaces another, which is put back in turn,
and one that is taken off an element that it is not on. -/
def carelessCalls : List Call :=
  [.edit (.parse .html "<p id=a ID=b>t</p><svg viewBox=0></svg>"), .setAttribute ⟨1⟩ "Id" "c",
    .createAttribute "ID", .createAttributeFor ⟨1⟩ "ID", .putAttribute ⟨1⟩ ⟨3⟩, .putAttribute ⟨3⟩ ⟨3⟩,
    .putAttribute ⟨2⟩ ⟨0⟩, .putAttribute ⟨3⟩ ⟨0⟩, .putAttribute ⟨1⟩ ⟨2⟩, .setAttribute ⟨3⟩ "viewbox" "1",
    .takeAttribute ⟨1⟩ ⟨0⟩, .edit (.copy ⟨0⟩), .removeAttribute ⟨3⟩ "VIEWBOX", .removeAttribute ⟨1⟩ "ID",
    .setAttributeValue ⟨0⟩ "d", .edit (.setText ⟨1⟩ "")]

theorem labelled_carelessCalls :
    Document.empty.Admits carelessCalls ∧
      let d := Document.empty.called carelessCalls
      (∀ n a, a ∈ (d.node n).attributes ↔ (d.attr a).owner = some n) ∧
        d.attributeNames ⟨1⟩ = ["ID"] ∧ d.attributeNames ⟨3⟩ = ["viewBox", "id", "viewbox"] ∧
        (d.attr ⟨3⟩).owner = none := by
  have hadmits : Document.empty.Admits carelessCalls := by decide +kernel
  exact ⟨hadmits, (called_labelled hadmits).1, by decide +kernel, by decide +kernel, by decide +kernel⟩

end LiveMarkup.Document
