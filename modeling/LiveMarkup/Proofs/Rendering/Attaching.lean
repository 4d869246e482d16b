import LiveMarkup.Proofs.Rendering.Comparison
import LiveMarkup.Proofs.Rendering.Courses
/-!
# The attribute that a binding keeps

The binding of an attribute keeps one attribute, which is on the element with the text of the last value that has a
text, unless that is null (`Binding.course_shows_attribute`). It is always the same attribute, so that whoever holds
it sees the value change, and the others stay in their order. Four things have to agree for that: whether the
binding takes the attribute to be on the element and what it remembers, the owner of the attribute, and the list of
the element (`Binding.Attached`). What is remembered need not be the last value, since a value that is the same is
not taken over, but it passes for that.
-/

namespace LiveMarkup

variable {d d' d₀ : Document} {n m : NodeId} {values : List Value} {b b₀ : Binding}
  {others : Document → Document → Prop}

/-! ### Attributes of a name -/

namespace Document

variable {a c : AttributeId} {name label text : String}

/-- The attributes of a node that have a name as it is spelled. -/
def attributesNamed (d : Document) (n : NodeId) (label : String) : List AttributeId :=
  (d.node n).attributes.filter fun c => (d.attr c).name == label

theorem spelled_congr (h : d'.kind n = d.kind n) : d'.spelled n name = d.spelled n name := by
  rw [spelled, h, spelled]

theorem attributeOf?_eq_head? : d.attributeOf? n name = (d.attributesNamed n (d.spelled n name)).head? :=
  List.head?_filter.symm

theorem mem_attributesNamed : c ∈ d.attributesNamed n label ↔ c ∈ (d.node n).attributes ∧ (d.attr c).name = label := by
  rw [attributesNamed, List.mem_filter, beq_iff_eq]

/-- Only one attribute, and whether and where a node has it, may be others. -/
structure Retouched (d d' : Document) (n : NodeId) (a : AttributeId) : Prop where
  size : d'.nodes.size = d.nodes.size
  attributes : d'.attributes.size = d.attributes.size
  node : ∀ m, ∃ as, d'.node m = { d.node m with attributes := as } ∧ (m ≠ n → as = (d.node m).attributes)
  rest : (d'.node n).attributes.filter (· != a) = (d.node n).attributes.filter (· != a)
  attr : ∀ c, c ≠ a → d'.attr c = d.attr c

theorem Reattributed.retouched (h : Reattributed d d' n a)
    (hrest : (d'.node n).attributes.filter (· != a) = (d.node n).attributes.filter (· != a)) :
    d.Retouched d' n a :=
  ⟨h.size, h.attributes, h.node, hrest, h.attr⟩

namespace Retouched

theorem refl (d : Document) (n : NodeId) (a : AttributeId) : d.Retouched d n a :=
  ⟨rfl, rfl, fun _ => ⟨_, rfl, fun _ => rfl⟩, rfl, fun _ _ => rfl⟩

theorem note (d : Document) (notice : Notice) (n : NodeId) (a : AttributeId) : d.Retouched (d.note notice) n a :=
  ⟨rfl, rfl, fun _ => ⟨_, rfl, fun _ => rfl⟩, rfl, fun _ _ => rfl⟩

theorem trans {d'' : Document} (h : d.Retouched d' n a) (h' : d'.Retouched d'' n a) : d.Retouched d'' n a where
  size := h'.size.trans h.size
  attributes := h'.attributes.trans h.attributes
  node m := by
    obtain ⟨as, hm, has⟩ := h.node m
    obtain ⟨as', hm', has'⟩ := h'.node m
    refine ⟨as', by rw [hm', hm], fun hne => ?_⟩
    rw [has' hne, hm]
    exact has hne
  rest := h'.rest.trans h.rest
  attr c hc := (h'.attr c hc).trans (h.attr c hc)

theorem has (h : d.Retouched d' n a) : d'.Has m ↔ d.Has m := by
  rw [Has, h.size, Has]

theorem hasAttribute (h : d.Retouched d' n a) : d'.HasAttribute c ↔ d.HasAttribute c := by
  rw [HasAttribute, h.attributes, HasAttribute]

theorem kind (h : d.Retouched d' n a) : d'.kind m = d.kind m := by
  obtain ⟨as, hm, -⟩ := h.node m
  rw [Document.kind, hm, Document.kind]

theorem isElement (h : d.Retouched d' n a) : d'.isElement m = d.isElement m := by
  rw [Document.isElement, h.kind, Document.isElement]

theorem spelled (h : d.Retouched d' n a) : d'.spelled m name = d.spelled m name :=
  spelled_congr h.kind

end Retouched

theorem attributesNamed_update (hn : d.Has n) (f : List AttributeId → List AttributeId) (owner : Option NodeId) :
    ((d.count.update n fun r => { r with attributes := f r.attributes }).updateAttribute a
      fun r => { r with owner }).attributesNamed n label =
      (f (d.node n).attributes).filter fun c => (d.attr c).name == label := by
  have hre := reattributed_update d n a f owner
  rw [attributesNamed, attributes_update hn f owner]
  refine List.filter_congr fun c _ => ?_
  by_cases hc : c = a
  · rw [hc, hre.name]
  · rw [hre.attr c hc]

/-- Giving an attribute a value. -/
theorem setAttributeValue_spec (n : NodeId) (label text : String) (ha : d.HasAttribute a) :
    let d' := d.setAttributeValue a text
    d.Retouched d' n a ∧ d'.attr a = { d.attr a with value := text } ∧
      d'.attributesNamed n label = d.attributesNamed n label := by
  have hre := reattributed_setAttributeValue d n a text
  refine ⟨hre.retouched rfl, attr_setAttributeValue ha, List.filter_congr fun c _ => ?_⟩
  by_cases hc : c = a
  · rw [hc, hre.name]
  · rw [hre.attr c hc]

/-- Putting an attribute on an element that has none of its name. -/
theorem putAttribute_spec (hn : d.Has n) (helement : d.isElement n = true) (ha : d.HasAttribute a)
    (howner : (d.attr a).owner = none) (hlabel : (d.attr a).name = label) (hfree : d.attributesNamed n label = []) :
    let d' := d.putAttribute n a
    d.Retouched d' n a ∧ d'.attr a = { d.attr a with owner := some n } ∧ d'.attributesNamed n label = [a] := by
  have hput := putAttribute_eq helement howner fun c hc he => by
    have hmem : c ∈ d.attributesNamed n label := mem_attributesNamed.2 ⟨hc, he.trans hlabel⟩
    rw [hfree] at hmem
    cases hmem
  rw [hput]
  refine ⟨(reattributed_update d n a (· ++ [a]) (some n)).retouched ?_, attr_update_owner ha (· ++ [a]) (some n), ?_⟩
  · rw [attributes_update hn (· ++ [a]) (some n)]
    simp
  · rw [attributesNamed_update hn (· ++ [a]) (some n), List.filter_append]
    have hnone : (d.node n).attributes.filter (fun c => (d.attr c).name == label) = [] := hfree
    rw [hnone]
    simp [hlabel]

/-- Taking off an attribute that is the only one of its name. -/
theorem takeAttribute_spec (hn : d.Has n) (ha : d.HasAttribute a) (hone : d.attributesNamed n label = [a]) :
    let d' := d.takeAttribute n a
    d.Retouched d' n a ∧ d'.attr a = { d.attr a with owner := none } ∧ d'.attributesNamed n label = [] := by
  have hmem : a ∈ d.attributesNamed n label := by
    rw [hone]
    exact List.mem_singleton_self a
  rw [takeAttribute_eq (mem_attributesNamed.1 hmem).1]
  refine ⟨(reattributed_update d n a (·.erase a) none).retouched ?_, attr_update_owner ha (·.erase a) none, ?_⟩
  · rw [attributes_update hn (·.erase a) none, ← List.erase_filter, List.erase_of_not_mem]
    simp
  · rw [attributesNamed_update hn (·.erase a) none, ← List.erase_filter]
    show (d.attributesNamed n label).erase a = []
    rw [hone, List.erase_cons_head]

/-- An attribute is on a node with some text, as the only one of its name, or it is on none, and the node has no
attribute of its name. -/
def ShowsText (d : Document) (n : NodeId) (a : AttributeId) (label : String) : Option String → Prop
  | some text => d.attr a = ⟨label, text, some n⟩ ∧ d.attributesNamed n label = [a]
  | none => (∃ value, d.attr a = ⟨label, value, none⟩) ∧ d.attributesNamed n label = []

theorem attributeValue?_of_showsText {shown : Option String} (h : d.ShowsText n a (d.spelled n name) shown) :
    d.attributeValue? n name = shown := by
  rw [attributeValue?, attributeOf?_eq_head?]
  cases shown with
  | none => rw [h.2, List.head?_nil, Option.map_none]
  | some text => rw [h.2, List.head?_cons, Option.map_some, h.1]

/-- A change that does not write an attribute of a node, and neither gives the node another one of that name nor
takes one away. -/
structure LeavesAttribute (d d' : Document) (n : NodeId) (a : AttributeId) (label : String) : Prop where
  has : d.Has n → d'.Has n
  kind : d'.kind n = d.kind n
  hasAttribute : d.HasAttribute a → d'.HasAttribute a
  attr : d'.attr a = d.attr a
  named : d'.attributesNamed n label = d.attributesNamed n label

theorem LeavesAttribute.showsText {shown : Option String} (h : d.LeavesAttribute d' n a label)
    (hshows : d.ShowsText n a label shown) : d'.ShowsText n a label shown := by
  cases shown <;> simpa only [ShowsText, h.attr, h.named] using hshows

end Document

/-! ### Attributes -/

namespace Value

variable {u v : Value}

theorem Passes.text? (h : u.Passes v) : u.text? = v.text? := by
  rcases h with rfl | h
  · rfl
  · exact text?_eq_of_isSame h

/-- The last one of some values that has a text. -/
def lastWithText (values : List Value) : Option Value :=
  (values.filter (·.text?.isSome)).getLast?

theorem lastWithText_append_none (h : v.text? = none) : lastWithText (values ++ [v]) = lastWithText values := by
  rw [lastWithText, List.filter_append, List.filter_cons_of_neg (by simp [h]), List.filter_nil, List.append_nil,
    lastWithText]

theorem lastWithText_append_some {t : String} (h : v.text? = some t) : lastWithText (values ++ [v]) = some v := by
  rw [lastWithText, List.filter_append, List.filter_cons_of_pos (by simp [h]), List.filter_nil,
    List.getLast?_concat]

theorem text?_of_lastWithText (h : lastWithText values = some v) : v.text?.isSome = true :=
  (List.mem_filter.1 (List.mem_of_getLast? h)).2

/-- The text that some values leave in an attribute: that of the last one that has a text, unless that is null. -/
def shownText (values : List Value) : Option String :=
  (lastWithText values).bind fun v => if v.isNull then none else v.text?

theorem shownText_append_none (h : v.text? = none) : shownText (values ++ [v]) = shownText values := by
  rw [shownText, lastWithText_append_none h, shownText]

theorem shownText_append_some {t : String} (h : v.text? = some t) :
    shownText (values ++ [v]) = if v.isNull then none else some t := by
  rw [shownText, lastWithText_append_some h, Option.bind_some, h]

/-- A value that is the same as what is remembered comes to what the value before it has come to. -/
theorem shownText_append_same {r : Value} {given : Option Value} (h : Option.Rel Passes (some r) given)
    (hgiven : lastWithText values = given) (hsame : r.isSame v = true) :
    (∃ t, v.text? = some t) ∧ shownText (values ++ [v]) = shownText values := by
  cases h with
  | @some _ u hr =>
    have htext : u.text? = v.text? := hr.text?.symm.trans (text?_eq_of_isSame hsame)
    have hnull : u.isNull = v.isNull := hr.isNull.symm.trans (isNull_eq_of_isSame hsame)
    obtain ⟨t, ht⟩ := Option.isSome_iff_exists.1 (text?_of_lastWithText hgiven)
    rw [htext] at ht
    refine ⟨⟨t, ht⟩, ?_⟩
    rw [shownText_append_some ht, shownText, hgiven, Option.bind_some, htext, hnull, ht]

theorem isNull_eq_false_of_text? (h : v.text? = none) : v.isNull = false := by
  cases v <;> first | rfl | cases h

end Value

namespace Binding

open Document Value

variable {a : AttributeId} {name label text : String} {attached : Bool} {last : Option Value} {v : Value}

theorem update_attr_same (h : last.any (·.isSame v) = true) :
    (attr n a attached last).update d v = (.attr n a attached last, d) :=
  if_pos h

theorem update_attr_null (h : last.any (·.isSame v) = false) (hv : v.isNull = true) :
    (attr n a attached last).update d v =
      (.attr n a false (some v), if attached then d.takeAttribute n a else d) := by
  rw [update, h, if_neg Bool.false_ne_true, if_pos hv]

theorem update_attr_unusable (h : last.any (·.isSame v) = false) (hv : v.isNull = false) (ht : v.text? = none) :
    (attr n a attached last).update d v = (.attr n a attached last, d.note (.noAttributeText v.shape)) := by
  rw [update, h, if_neg Bool.false_ne_true, hv, if_neg Bool.false_ne_true, ht]

theorem update_attr_text (h : last.any (·.isSame v) = false) (hv : v.isNull = false) (ht : v.text? = some text) :
    (attr n a attached last).update d v =
      (.attr n a true (some v), if attached then d.setAttributeValue a text
        else (d.setAttributeValue a text).putAttribute n a) := by
  rw [update, h, if_neg Bool.false_ne_true, hv, if_neg Bool.false_ne_true, ht]

/-- A binding has brought an attribute up to date with some values: it remembers the last one with a text, or what
passes for that, and the element has what they come to. -/
structure Attached (n : NodeId) (a : AttributeId) (name label : String) (values : List Value) (b : Binding)
    (d : Document) : Prop where
  binding : ∃ last, b = .attr n a (shownText values).isSome last ∧ Option.Rel Passes last (lastWithText values)
  has : d.Has n
  element : d.isElement n = true
  spelled : d.spelled n name = label
  hasAttribute : d.HasAttribute a
  shows : d.ShowsText n a label (shownText values)

/-- After a null the attribute is not on the element. -/
theorem showsText_null {shown : Option String} (hn : d.Has n) (ha : d.HasAttribute a)
    (hshows : d.ShowsText n a label shown) :
    let d' := if shown.isSome then d.takeAttribute n a else d
    d.Retouched d' n a ∧ d'.ShowsText n a label none := by
  cases shown with
  | none => exact ⟨.refl d n a, hshows⟩
  | some old =>
    obtain ⟨hattr, hone⟩ := hshows
    obtain ⟨htake, hvalue, hnamed⟩ := takeAttribute_spec hn ha hone
    exact ⟨htake, ⟨old, hvalue.trans (by rw [hattr])⟩, hnamed⟩

/-- After a value with a text the attribute is on the element with that text. -/
theorem showsText_text {shown : Option String} (text : String) (hn : d.Has n) (helement : d.isElement n = true)
    (ha : d.HasAttribute a) (hshows : d.ShowsText n a label shown) :
    let d' := if shown.isSome then d.setAttributeValue a text else (d.setAttributeValue a text).putAttribute n a
    d.Retouched d' n a ∧ d'.ShowsText n a label (some text) := by
  obtain ⟨hset, hvalue, hnamed⟩ := setAttributeValue_spec n label text ha
  cases shown with
  | none =>
    obtain ⟨⟨value, hattr⟩, hnone⟩ := hshows
    rw [hattr] at hvalue
    rw [hnone] at hnamed
    obtain ⟨hput, hvalue', hnamed'⟩ := putAttribute_spec (hset.has.2 hn) (hset.isElement.trans helement)
      (hset.hasAttribute.2 ha) (by rw [hvalue]) (by rw [hvalue]) hnamed
    exact ⟨hset.trans hput, hvalue'.trans (by rw [hvalue]), hnamed'⟩
  | some old =>
    obtain ⟨hattr, hone⟩ := hshows
    exact ⟨hset, hvalue.trans (by rw [hattr]), hnamed.trans hone⟩

/-- One more value. -/
theorem Attached.update (h : Attached n a name label values b d) (v : Value) :
    let d' := (b.update d v).2
    Attached n a name label (values ++ [v]) (b.update d v).1 d' ∧ d.Retouched d' n a := by
  obtain ⟨⟨last, rfl, hlast⟩, hn, helement, hspelled, ha, hshows⟩ := h
  cases hsame : last.any (·.isSame v) with
  | true =>
    obtain ⟨r, rfl, hrv⟩ := (Option.any_eq_true ..).1 hsame
    obtain ⟨⟨t, ht⟩, hshown⟩ := shownText_append_same hlast rfl hrv
    rw [update_attr_same hsame]
    refine ⟨⟨⟨some r, by rw [hshown], ?_⟩, hn, helement, hspelled, ha, hshown ▸ hshows⟩, .refl d n a⟩
    rw [lastWithText_append_some ht]
    exact .some (.inr hrv)
  | false =>
    cases ht : v.text? with
    | none =>
      rw [update_attr_unusable hsame (isNull_eq_false_of_text? ht) ht]
      have hshown : shownText (values ++ [v]) = shownText values := shownText_append_none ht
      refine ⟨⟨⟨last, by rw [hshown], ?_⟩, hn, helement, hspelled, ha, hshown ▸ hshows⟩, .note ..⟩
      rw [lastWithText_append_none ht]
      exact hlast
    | some t =>
      have hshown : shownText (values ++ [v]) = if v.isNull then none else some t := shownText_append_some ht
      have hremembered : Option.Rel Passes (some v) (lastWithText (values ++ [v])) := by
        rw [lastWithText_append_some ht]
        exact .some (.inl rfl)
      have hattached : ∀ {d' : Document}, d.Retouched d' n a → d'.ShowsText n a label (shownText (values ++ [v])) →
          Attached n a name label (values ++ [v]) (.attr n a (shownText (values ++ [v])).isSome (some v)) d' :=
        fun hre hshows' => ⟨⟨some v, rfl, hremembered⟩, hre.has.2 hn, hre.isElement.trans helement,
          hre.spelled.trans hspelled, hre.hasAttribute.2 ha, hshows'⟩
      cases hnull : v.isNull with
      | true =>
        rw [hnull, if_pos rfl] at hshown
        obtain ⟨hre, hshows'⟩ := showsText_null hn ha hshows
        rw [update_attr_null hsame hnull]
        rw [hshown] at hattached
        exact ⟨hattached hre hshows', hre⟩
      | false =>
        rw [hnull, if_neg Bool.false_ne_true] at hshown
        obtain ⟨hre, hshows'⟩ := showsText_text t hn helement ha hshows
        rw [update_attr_text hsame hnull ht]
        rw [hshown] at hattached
        exact ⟨hattached hre hshows', hre⟩

/-- A value without a text is noted and nothing else. -/
theorem Attached.update_unusable (h : Attached n a name label values b d) (hv : v.text? = none) :
    b.update d v = (b, d.note (.noAttributeText v.shape)) := by
  obtain ⟨⟨last, rfl, hlast⟩, -⟩ := h
  cases hsame : last.any (·.isSame v) with
  | true =>
    obtain ⟨r, rfl, hrv⟩ := (Option.any_eq_true ..).1 hsame
    obtain ⟨⟨t, ht⟩, -⟩ := shownText_append_same hlast rfl hrv
    rw [hv] at ht
    cases ht
  | false => exact update_attr_unusable hsame (isNull_eq_false_of_text? hv) hv

/-- A value that is the same as the last one with a text changes nothing. -/
theorem Attached.update_same {u : Value} (h : Attached n a name label values b d) (hu : lastWithText values = some u)
    (huv : u.isSame v = true) : b.update d v = (b, d) := by
  obtain ⟨⟨last, rfl, hlast⟩, -⟩ := h
  rw [hu] at hlast
  cases hlast with
  | some hr => exact update_attr_same (hr.isSame huv)

/-- Binding an attribute makes one that is on no element. -/
theorem ofHole_attr (h : (ofHole d n (.attr name)).1 = .attr n a false none) :
    a = d.nextAttribute ∧ (ofHole d n (.attr name)).2 = (d.createAttributeFor n name).2 := by
  change (ofAttribute d n name).1 = _ at h
  change a = _ ∧ (ofAttribute d n name).2 = _
  obtain hmade | ⟨property, hmade⟩ | hmade | hmade := ofAttribute_cases d n name <;> rw [hmade] at h ⊢ <;>
    cases h
  exact ⟨rfl, rfl⟩

theorem attached_start (hn : d.Has n) (helement : d.isElement n = true) (hlisted : d.Listed)
    (hfree : d.attributeOf? n name = none) :
    Attached n d.nextAttribute name (d.spelled n name) [] (.attr n d.nextAttribute false none)
      (d.createAttributeFor n name).2 := by
  have hattr := attr_createAttribute d (d.spelled n name)
  refine ⟨⟨none, rfl, .none⟩, hn, helement, rfl, ?_, ⟨"", ?_⟩, ?_⟩
  · rw [createAttributeFor, createAttribute, HasAttribute, Array.size_push]
    exact Nat.lt_succ_self _
  · rw [createAttributeFor, hattr, if_pos rfl]
  · rw [attributeOf?_eq_head?, List.head?_eq_none_iff] at hfree
    rw [← hfree]
    refine List.filter_congr fun c hc => ?_
    rw [createAttributeFor, hattr, if_neg (hlisted n c hc).ne_next]

theorem attached_course {e : Document} (h : Attached n a name label [] b₀ d₀)
    (hothers : ∀ e e', others e e' → e.LeavesAttribute e' n a label) (hcourse : Course others b₀ d₀ values b e) :
    Attached n a name label values b e := by
  induction hcourse with
  | start => exact h
  | @other values b e e' _ hstep ih =>
    have hleaves := hothers e e' hstep
    refine ⟨ih.binding, hleaves.has ih.has, ?_, ?_, hleaves.hasAttribute ih.hasAttribute, ?_⟩
    · rw [isElement, hleaves.kind]
      exact ih.element
    · rw [spelled_congr hleaves.kind]
      exact ih.spelled
    · exact hleaves.showsText ih.shows
  | update v _ ih => exact (ih.update v).1

/-- The binding of an attribute hole keeps one attribute, whatever it is given and whatever else happens to the
document, as long as nothing else writes that attribute or one of its name. The element has it, as the only one of
its name, if the last value with a text is not null, and it has that text then. A value changes nothing of the other
attributes and of their order, and nothing at all if it has no text or is the same as the last one that has. -/
theorem course_shows_attribute {e : Document} (hn : d.Has n) (helement : d.isElement n = true) (hlisted : d.Listed)
    (hfree : d.attributeOf? n name = none) (hhole : (ofHole d n (.attr name)).1 = .attr n a false none)
    (hothers : ∀ e e', others e e' → e.LeavesAttribute e' n a (d.spelled n name))
    (hcourse : Course others (ofHole d n (.attr name)).1 (ofHole d n (.attr name)).2 values b e) :
    e.attributeValue? n name = shownText values ∧ e.ShowsText n a (d.spelled n name) (shownText values) ∧
      ∀ v, e.Retouched (b.update e v).2 n a ∧
        (v.text? = none → b.update e v = (b, e.note (.noAttributeText v.shape))) ∧
          ∀ u, lastWithText values = some u → u.isSame v = true → b.update e v = (b, e) := by
  obtain ⟨rfl, hmade⟩ := ofHole_attr hhole
  rw [hhole, hmade] at hcourse
  have h := attached_course (attached_start hn helement hlisted hfree) hothers hcourse
  refine ⟨attributeValue?_of_showsText (h.spelled ▸ h.shows), h.shows, fun v => ⟨(h.update v).2, ?_, ?_⟩⟩
  · exact h.update_unusable
  · exact fun u => h.update_same

/-- A text, a value of no use, a null and a truth value for an attribute hole that is spelled in capitals, while the
paragraph gets another attribute. -/
theorem course_shows_attribute_paragraph :
    let d := titledParagraph
    let others := fun e e' : Document => e.LeavesAttribute e' ⟨1⟩ d.nextAttribute "class"
    let made := ofHole d ⟨1⟩ (.attr "CLASS")
    let values : List Value := [.string "x", .listener ⟨0⟩, .null, .bool true]
    (d.Has ⟨1⟩ ∧ d.isElement ⟨1⟩ = true ∧ d.Listed ∧ d.attributeOf? ⟨1⟩ "CLASS" = none ∧
        made.1 = .attr ⟨1⟩ d.nextAttribute false none ∧ d.spelled ⟨1⟩ "CLASS" = "class") ∧
      ∃ b e, Course others made.1 made.2 values b e ∧ e.attributeValue? ⟨1⟩ "CLASS" = some "true" ∧
        e.attributesNamed ⟨1⟩ "class" = [d.nextAttribute] ∧
        (e.node ⟨1⟩).attributes = [⟨0⟩, ⟨2⟩, d.nextAttribute] ∧ b.update e (.bool true) = (b, e) := by
  intro d others made values
  have hn : d.Has ⟨1⟩ := by decide +kernel
  have helement : d.isElement ⟨1⟩ = true := by decide +kernel
  have hlisted : d.Listed := (sound_empty.parse .html _).owned.listed
  have hfree : d.attributeOf? ⟨1⟩ "CLASS" = none := by decide +kernel
  have hhole : made.1 = .attr ⟨1⟩ d.nextAttribute false none := rfl
  have hspelled : d.spelled ⟨1⟩ "CLASS" = "class" := by decide +kernel
  let first := made.1.update made.2 (.string "x")
  have hother : others first.2 (first.2.setAttribute ⟨1⟩ "id" "b") :=
    ⟨by decide +kernel, by decide +kernel, by decide +kernel, by decide +kernel, by decide +kernel⟩
  have hcourse : Course others made.1 made.2 values _ _ :=
    .update _ (.update _ (.update _ (.other (.update (.string "x") .start) hother)))
  have h := course_shows_attribute hn helement hlisted hfree hhole (fun _ _ h => hspelled.symm ▸ h) hcourse
  refine ⟨⟨hn, helement, hlisted, hfree, hhole, hspelled⟩, _, _, hcourse, h.1, ?_, by decide +kernel, ?_⟩
  · exact (hspelled ▸ h.2.1.2)
  · exact (h.2.2 (.bool true)).2.2 (.bool true) rfl rfl

end Binding

end LiveMarkup
