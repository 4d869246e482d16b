import LiveMarkup.Proofs.Document.Growing
/-!
# How far a change reaches

Some nodes and attributes of a document belong together (`Estate`). A change that is confined to an estate
leaves all else that is there as it is: what the other nodes say, their attributes, properties and listeners
(`Confined`). It may move any nodes, since where a node stands is not part of it. Nor does it bring attributes
of the estate to other nodes or the other way round, so a node that has had none of them has none afterwards
(`Relists`), and this is what keeps one estate out of the way of the next (`Confined.undisturbed`).

Each operation is confined to what it is asked to change, with one exception: an attribute that is put on an
element may displace another one, so the estate has to have all that the element has.
-/

namespace LiveMarkup.Document

variable {d d' d'' : Document} {n : NodeId} {a : AttributeId}

/-- Some nodes and attributes that belong together. -/
structure Estate where
  nodes : NodeId → Prop
  attributes : AttributeId → Prop

/-- What a document does not have yet. -/
def unmade (d : Document) : Estate :=
  ⟨fun n => ¬ d.Has n, fun a => ¬ d.HasAttribute a⟩

/-- A node is as it was, wherever it stands: what it is and says, its attributes with their names and values,
its properties and its listeners. -/
structure Undisturbed (d d' : Document) (n : NodeId) : Prop where
  bare : (d'.node n).bare = (d.node n).bare
  pairs : d'.attributePairs n = d.attributePairs n

/-- A document has grown, and only nodes of an estate have got attributes, which are of the estate as well. -/
structure Relists (d d' : Document) (own : Estate) : Prop where
  grows : d.Grows d'
  lists : ∀ n, ∀ a ∈ (d'.node n).attributes,
    a ∈ (d.node n).attributes ∨ own.nodes n ∧ own.attributes a ∧ d'.HasAttribute a

/-- Of what was there only the nodes and attributes of an estate may have changed. -/
structure Confined (d d' : Document) (own : Estate) : Prop extends Relists d d' own where
  bare : ∀ n, d.Has n → ¬ own.nodes n → (d'.node n).bare = (d.node n).bare
  attr : ∀ a, d.HasAttribute a → ¬ own.attributes a → d'.attr a = d.attr a

variable {own own' : Estate}

theorem Relists.trans (h : d.Relists d' own) (h' : d'.Relists d'' own) : d.Relists d'' own where
  grows := h.grows.trans h'.grows
  lists n a ha := by
    rcases h'.lists n a ha with hold | hnew
    · exact (h.lists n a hold).imp_right fun ⟨hn, hown, hhas⟩ => ⟨hn, hown, h'.grows.hasAttribute hhas⟩
    · exact .inr hnew

theorem Relists.listed (h : d.Relists d' own) (hd : d.Listed) : d'.Listed := fun n a ha =>
  (h.lists n a ha).elim (fun hold => h.grows.hasAttribute (hd n a hold)) fun hnew => hnew.2.2

namespace Confined

theorem refl (d : Document) (own : Estate) : d.Confined d own :=
  ⟨⟨.refl d, fun _ _ ha => .inl ha⟩, fun _ _ _ => rfl, fun _ _ _ => rfl⟩

theorem trans (h : d.Confined d' own) (h' : d'.Confined d'' own) : d.Confined d'' own where
  toRelists := h.toRelists.trans h'.toRelists
  bare n hn hout := (h'.bare n (h.grows.has hn) hout).trans (h.bare n hn hout)
  attr a ha hout := (h'.attr a (h.grows.hasAttribute ha) hout).trans (h.attr a ha hout)

theorem mono (h : d.Confined d' own) (hnodes : ∀ n, own.nodes n → own'.nodes n)
    (hattributes : ∀ a, own.attributes a → own'.attributes a) : d.Confined d' own' where
  grows := h.grows
  lists n a ha := (h.lists n a ha).imp_right fun ⟨hn, hown, hhas⟩ => ⟨hnodes n hn, hattributes a hown, hhas⟩
  bare n hn hout := h.bare n hn fun hown => hout (hnodes n hown)
  attr a ha hout := h.attr a ha fun hown => hout (hattributes a hown)

/-- What has been made on the way counts as new. -/
theorem trans_unmade (h : d.Confined d' d.unmade) (h' : d'.Confined d'' d'.unmade) :
    d.Confined d'' d.unmade :=
  h.trans (h'.mono (fun _ hn hhas => hn (h.grows.has hhas)) fun _ ha hhas => ha (h.grows.hasAttribute hhas))

/-- A node outside of the estate that has none of its attributes is as it was. -/
theorem undisturbed (h : d.Confined d' own) (hd : d.Listed) (hn : d.Has n) (hout : ¬ own.nodes n)
    (hlist : ∀ a ∈ (d.node n).attributes, ¬ own.attributes a) : d.Undisturbed d' n := by
  have hbare := h.bare n hn hout
  have hattributes : (d'.node n).attributes = (d.node n).attributes := by
    have hlist := congrArg Node.attributes hbare
    exact hlist
  refine ⟨hbare, ?_⟩
  rw [attributePairs, hattributes, attributePairs]
  exact List.map_congr_left fun a ha => by rw [h.attr a (hd n a ha) (hlist a ha)]

/-- Making something disturbs no node that is there. -/
theorem undisturbed_of_unmade (h : d.Confined d' d.unmade) (hd : d.Listed) (hn : d.Has n) : d.Undisturbed d' n :=
  h.undisturbed hd hn (fun hnot => hnot hn) fun a ha hnot => hnot (hd n a ha)

end Confined

/-! ### Moves -/

theorem Relinked.confined (h : Relinked d d') : d.Confined d' own where
  grows := ⟨Nat.le_of_eq h.size.symm, Nat.le_of_eq (congrArg Array.size h.attributes).symm,
    Nat.le_of_eq h.groups.symm⟩
  lists n a ha := .inl (by rwa [h.attributesOf] at ha)
  bare n _ _ := h.bare n
  attr a _ _ := h.attr a

theorem Shifts.confined {targets : List NodeId} (h : d.Shifts d' targets) : d.Confined d' own :=
  h.relinked.confined

theorem confined_count (d : Document) : d.Confined d.count own :=
  (shifts_count d []).confined

theorem confined_note (d : Document) (notice : Notice) : d.Confined (d.note notice) own :=
  (shifts_note d notice []).confined

theorem confined_setCell (d : Document) (c : CellId) (n : NodeId) : d.Confined (d.setCell c n) own :=
  ⟨⟨⟨Nat.le_refl _, Nat.le_refl _, Nat.le_refl _⟩, fun _ _ ha => .inl ha⟩, fun _ _ _ => rfl,
    fun _ _ _ => rfl⟩

theorem confined_link (d : Document) (p n : NodeId) : d.Confined (d.link p n) own :=
  (relinked_update d p (fun r => { r with children := r.children ++ [n] }) fun _ => rfl).confined.trans
    (relinked_update _ n (fun r => { r with parent := some p }) fun _ => rfl).confined

theorem confined_blockOfOwn (d : Document) (fragment : NodeId) :
    d.Confined (d.blockOfOwn fragment).2 own := by
  have hblock : d.Confined (d.blockOf fragment).2 own := by
    unfold blockOf
    split
    · exact .refl d own
    · exact ⟨⟨⟨Nat.le_refl _, Nat.le_refl _, Nat.le_succ _⟩, fun _ _ ha => .inl ha⟩, fun _ _ _ => rfl,
        fun _ _ _ => rfl⟩
  refine hblock.trans ?_
  unfold blockOfOwn
  dsimp only
  split
  · exact (shifts_detach _ _ []).confined
  · exact .refl _ own

/-! ### Nodes -/

theorem confined_create (d : Document) (kind : NodeKind) (data : String) :
    d.Confined (d.create kind data).2 own where
  grows := grows_create d kind data
  lists n a ha := by
    rw [node_create] at ha
    split at ha
    · cases ha
    · exact .inl ha
  bare n hn _ := by rw [node_create, if_neg hn.ne_next]
  attr _ _ _ := rfl

/-- A node of the estate is changed, but not its list of attributes. -/
theorem confined_update (hn : own.nodes n) (d : Document) {f : Node → Node}
    (hf : ∀ r, (f r).attributes = r.attributes) : d.Confined (d.update n f) own where
  grows := ⟨Nat.le_of_eq (size_nodes_update ..).symm, Nat.le_refl _, Nat.le_refl _⟩
  lists m a ha := by
    rw [node_update] at ha
    split at ha
    · exact .inl (hf _ ▸ ha)
    · exact .inl ha
  bare m _ hout := by
    have hne : m ≠ n := fun hm => hout (hm ▸ hn)
    rw [node_update, if_neg fun h => hne h.1]
  attr _ _ _ := rfl

theorem confined_setData (hn : own.nodes n) (d : Document) (data : String) :
    d.Confined (d.setData n data) own :=
  (confined_count d).trans (confined_update hn _ fun _ => rfl)

theorem confined_setText (hn : own.nodes n) (d : Document) (text : String) :
    d.Confined (d.setText n text) own := by
  unfold setText
  split
  · exact confined_setData hn d text
  · refine ((confined_count d).trans (shifts_clear d.count n []).confined).trans ?_
    dsimp only
    split
    · exact .refl _ own
    · exact (confined_create ..).trans (shifts_attach (List.mem_singleton_self n) ..).confined

theorem confined_setProperty (hn : own.nodes n) (d : Document) (name : String) (value : Value) :
    d.Confined (d.setProperty n name value) own :=
  (confined_count d).trans (confined_update hn _ fun _ => rfl)

theorem confined_addListener (hn : own.nodes n) (d : Document) (type : String) (listener : ListenerId) :
    d.Confined (d.addListener n type listener) own := by
  unfold addListener
  split
  · exact .refl d own
  · exact (confined_count d).trans (confined_update hn _ fun _ => rfl)

theorem confined_removeListener (hn : own.nodes n) (d : Document) (type : String) (listener : ListenerId) :
    d.Confined (d.removeListener n type listener) own := by
  unfold removeListener
  split
  · exact (confined_count d).trans (confined_update hn _ fun _ => rfl)
  · exact .refl d own

/-! ### Attributes -/

theorem confined_createAttribute (d : Document) (name : String) :
    d.Confined (d.createAttribute name).2 own where
  grows := (evolves_createAttribute d name : d.Evolves _ [] []).grows
  lists _ _ ha := .inl ha
  bare _ _ _ := rfl
  attr a ha _ := by rw [attr_createAttribute, if_neg ha.ne_next]

theorem confined_giveAttribute (hn : own.nodes n) (d : Document) (hnext : own.attributes d.nextAttribute)
    (name value : String) : d.Confined (d.giveAttribute n name value) own where
  grows := (evolves_giveAttribute d n name value : d.Evolves _ [] []).grows
  lists m a ha := by
    rw [node_giveAttribute] at ha
    split at ha
    · rename_i hm
      rcases List.mem_append.1 ha with hold | hnew
      · exact .inl hold
      · obtain rfl := List.mem_singleton.1 hnew
        exact .inr ⟨hm.1 ▸ hn, hnext, Nat.lt_of_lt_of_eq (Nat.lt_succ_self _) (Array.size_push _).symm⟩
    · exact .inl ha
  bare m _ hout := by
    have hne : m ≠ n := fun hm => hout (hm ▸ hn)
    rw [node_giveAttribute, if_neg fun h => hne h.1]
  attr a ha _ := by rw [attr_giveAttribute, if_neg ha.ne_next]

theorem confined_updateAttribute (ha : own.attributes a) (d : Document) (f : Attribute → Attribute) :
    d.Confined (d.updateAttribute a f) own where
  grows := ⟨Nat.le_refl _, Nat.le_of_eq (Array.size_modify ..).symm, Nat.le_refl _⟩
  lists _ _ hmem := .inl hmem
  bare _ _ _ := rfl
  attr b _ hout := by
    have hne : b ≠ a := fun hb => hout (hb ▸ ha)
    rw [attr_updateAttribute, if_neg fun h => hne h.1]

theorem confined_setAttributeValue (ha : own.attributes a) (d : Document) (value : String) :
    d.Confined (d.setAttributeValue a value) own :=
  (confined_count d).trans (confined_updateAttribute ha _ _)

/-- The list of a node of the estate is changed, and all that comes to it is of the estate. -/
theorem confined_relist (hn : own.nodes n) (d : Document) (f : List AttributeId → List AttributeId)
    (hf : ∀ as, ∀ b ∈ f as, b ∈ as ∨ own.attributes b ∧ d.HasAttribute b) :
    d.Confined (d.update n fun r => { r with attributes := f r.attributes }) own where
  grows := ⟨Nat.le_of_eq (size_nodes_update ..).symm, Nat.le_refl _, Nat.le_refl _⟩
  lists m b hb := by
    rw [node_update] at hb
    split at hb
    · rename_i hm
      exact (hf _ b hb).imp_right fun hnew => ⟨hm.1 ▸ hn, hnew⟩
    · exact .inl hb
  bare m _ hout := by
    have hne : m ≠ n := fun hm => hout (hm ▸ hn)
    rw [node_update, if_neg fun h => hne h.1]
  attr _ _ _ := rfl

theorem confined_placeAttribute (hn : own.nodes n) (ha : own.attributes a) (hhas : d.HasAttribute a)
    (hlist : ∀ b ∈ (d.node n).attributes, own.attributes b) : d.Confined (d.placeAttribute n a) own := by
  refine (confined_count d).trans ?_
  unfold placeAttribute
  dsimp only
  refine .trans ?_ (confined_updateAttribute ha _ _)
  split
  · rename_i b hfind
    have hb : own.attributes b := hlist b (List.mem_of_find?_eq_some hfind)
    refine Confined.trans ?_ (confined_updateAttribute hb _ _)
    refine confined_relist hn d.count (·.map fun c => if c = b then a else c) fun as c hc => ?_
    obtain ⟨c', hc', rfl⟩ := List.mem_map.1 hc
    split
    · exact .inr ⟨ha, hhas⟩
    · exact .inl hc'
  · refine confined_relist hn d.count (· ++ [a]) fun as c hc => ?_
    refine (List.mem_append.1 hc).imp_right fun hnew => ?_
    rw [List.mem_singleton.1 hnew]
    exact ⟨ha, hhas⟩

theorem confined_putAttribute (hn : own.nodes n) (ha : own.attributes a) (hhas : d.HasAttribute a)
    (hlist : ∀ b ∈ (d.node n).attributes, own.attributes b) : d.Confined (d.putAttribute n a) own := by
  unfold putAttribute
  split
  · split
    · exact confined_placeAttribute hn ha hhas hlist
    · split
      · exact .refl d own
      · exact confined_note ..
  · exact confined_note ..

theorem confined_takeAttribute (hn : own.nodes n) (ha : own.attributes a) (d : Document) :
    d.Confined (d.takeAttribute n a) own := by
  unfold takeAttribute
  split
  · refine Confined.trans ?_ (confined_updateAttribute ha _ _)
    exact (confined_count d).trans (confined_relist hn d.count (·.erase a) fun _ _ hb =>
      .inl (List.mem_of_mem_erase hb))
  · exact confined_note ..

/-! ### New content -/

/-- A node that has just been made is given some attributes. -/
theorem confined_giveAttributes {base : Document} (hn : ¬ base.Has n) (pairs : List (String × String))
    (hd : base.Grows d) :
    d.Confined (pairs.foldl (fun d p => d.giveAttribute n p.1 p.2) d) base.unmade := by
  induction pairs generalizing d with
  | nil => exact .refl d _
  | cons p rest ih =>
    have hgive : d.Confined (d.giveAttribute n p.1 p.2) base.unmade :=
      confined_giveAttribute (show base.unmade.nodes n from hn) d
        (fun hhas => not_hasAttribute_next (hd.hasAttribute hhas)) p.1 p.2
    exact hgive.trans (ih (hd.trans hgive.grows))

theorem confined_createElement (d : Document) (tag : Markup.Tag) :
    d.Confined (d.createElement tag).2 d.unmade :=
  (confined_create d _ _).trans
    (confined_giveAttributes (d := (d.create _ _).2) not_has_next tag.attributes (grows_create d _ _))

theorem confined_trees :
    (∀ (t : Markup.Tree) (p : NodeId) (d : Document), d.Confined (addTree p d t) d.unmade) ∧
      ∀ (ts : List Markup.Tree) (p : NodeId) (d : Document), d.Confined (addContent p d ts) d.unmade := by
  refine Markup.Tree.induct ?_ ?_ ?_ ?_ ?_
  · intro tag children ih p d
    rw [addTree]
    exact ((confined_createElement d tag).trans (confined_link ..)).trans_unmade (ih _ _)
  · intro data p d
    exact (confined_create d .text data).trans (confined_link ..)
  · intro data p d
    exact (confined_create d .comment data).trans (confined_link ..)
  · exact fun p d => .refl d _
  · intro t ts iht ihts p d
    rw [addContent]
    exact (iht p d).trans_unmade (ihts p _)

theorem confined_createFragment (d : Document) (content : List Markup.Tree) :
    d.Confined (d.createFragment content).2 d.unmade :=
  (confined_create d .fragment "").trans_unmade (confined_trees.2 content _ _)

end LiveMarkup.Document
