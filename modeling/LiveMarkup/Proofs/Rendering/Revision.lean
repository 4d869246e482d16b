import LiveMarkup.Proofs.Rendering.Ready
import LiveMarkup.Proofs.Rendering.Retrimming
/-!
# Changing what is on show

What `Document.Ready` says of a container also survives the changes that a value makes which comes after
another one: a text in use says something else (`Ready.say`) or is taken away (`Ready.withdraw`), and an
attribute gets another value, is put on its element or is taken off it (`Ready.revalue`).
-/

namespace LiveMarkup

theorem within_say {root : Option NodeId} {ps : List Plant} {n m : NodeId} {data : String}
    (h : Within root (Plant.graftAll (Plant.say n data) ps) m) : Within root ps m := by
  rcases h with h | h
  · exact .inl h
  · refine .inr ((Plant.mem_idsAll_graftAll (E := fun _ => False) (fun q k hk => .inl ?_)
      h).resolve_right id)
    cases q <;> simpa [Plant.say, Plant.ids] using hk

theorem within_without {root : Option NodeId} {ps : List Plant} {n m : NodeId}
    (h : Within root (Plant.graftAll (Plant.without n) ps) m) : Within root ps m := by
  rcases h with h | h
  · exact .inl h
  · refine .inr ((Plant.mem_idsAll_graftAll (E := fun _ => False) (fun q k hk => .inl ?_)
      h).resolve_right id)
    rw [Plant.without] at hk
    split at hk
    · rw [Plant.idsAll_nil] at hk
      cases hk
    · simpa using hk

theorem Plant.not_mem_without {ps : List Plant} {n : NodeId} :
    n ∉ Plant.idsAll (Plant.graftAll (Plant.without n) ps) := by
  have hall : (∀ q : Plant, n ∉ Plant.idsAll (q.graft (Plant.without n))) ∧
      ∀ qs : List Plant, n ∉ Plant.idsAll (Plant.graftAll (Plant.without n) qs) := by
    refine Plant.induct ?_ ?_ ?_ ?_ ?_
    · intro id tag children ih
      rw [Plant.graft, Plant.without]
      split
      · simp
      · rename_i hid
        simpa [Plant.ids, ih] using Ne.symm hid
    · intro id data
      rw [Plant.graft, Plant.without]
      split
      · simp
      · rename_i hid
        simpa [Plant.ids] using Ne.symm hid
    · intro id data
      rw [Plant.graft, Plant.without]
      split
      · simp
      · rename_i hid
        simpa [Plant.ids] using Ne.symm hid
    · simp
    · intro q qs hq hqs
      rw [Plant.graftAll_cons, Plant.idsAll_append, List.mem_append]
      exact fun h => h.elim hq hqs
  exact hall.2 ps

namespace Document

variable {d : Document} {c n m p : NodeId} {ps : List Plant} {entries : List (Binding × Spot)}
  {pieces : List (Block × List Plant)}

namespace Ready

/-- A text in use says something else. -/
theorem say {b b' : ChildBinding} {old : String}
    (g : d.Ready (some c) ps pieces ((.child b, .child n [.text b.text old]) :: entries))
    (hpieces : ∀ x ∈ pieces, ¬ Within x.1.root? x.2 b.text)
    (hplaceholder : b'.placeholder = b.placeholder) (htext : b'.text = b.text) (data : String) :
    (d.setData b.text data).Ready (some c) (Plant.graftAll (Plant.say b.text data) ps) pieces
      ((.child b', .child n [.text b.text data]) :: entries) := by
  obtain ⟨hb, hhas, hkind, -⟩ := g.supports _ (List.mem_cons_self ..)
  have hseparate := List.pairwise_cons.1 g.separate
  refine ⟨g.sound.setData _ _, g.bears.say hhas hkind, fun r hr => has_setData.2 (g.rooted r hr),
    fun h => by (cases h), fun x hx => ?_, g.apart, fun x hx k hk hw => g.aside x hx k hk (within_say hw),
    List.forall_mem_cons.2 ⟨?_, fun e he => (g.supports e (List.mem_cons_of_mem _ he)).setData _ _⟩,
    List.pairwise_cons.2 ⟨fun e he => ?_, hseparate.2⟩, fun k m hk => ?_⟩
  · refine (g.loose x hx).congr (fun m hm => unchanged_setData ?_) fun k _ hk => parent?_setData.trans hk
    rintro rfl
    exact hpieces x hx hm
  · refine ⟨hplaceholder.trans hb, ?_, ?_, fun he => by (cases he)⟩
    · rw [htext]
      exact has_setData.2 hhas
    · rw [htext, kind_setData, hkind]
  · have hs := hseparate.1 e he
    obtain ⟨b'', s⟩ := e
    cases b'' with
    | child k =>
      rw [Separate, htext]
      exact hs
    | _ => trivial
  · rcases List.mem_cons.1 hk with hk | hk
    · cases hk
    · have hhidden := g.hidden k m (List.mem_cons_of_mem _ hk)
      exact ⟨fun hw => hhidden.1 (within_say hw), hhidden.2⟩

/-- A text is not in use any more. -/
theorem withdraw {b b' : ChildBinding} {old : String}
    (g : d.Ready (some c) ps pieces ((.child b, .child n [.text b.text old]) :: entries))
    (htree : b.text ∈ Plant.idsAll ps) (hp : d.parent? b.text = some p)
    (hplaceholder : b'.placeholder = b.placeholder) (htext : b'.text = b.text) :
    (d.removeChild p b.text).Ready (some c) (Plant.graftAll (Plant.without b.text) ps) pieces
      ((.child b', .child n []) :: entries) := by
  obtain ⟨hb, hhas, hkind, -⟩ := g.supports _ (List.mem_cons_self ..)
  have hseparate := List.pairwise_cons.1 g.separate
  have hf := g.sound.forest.counted 1
  rw [← count_eq_counted] at hf
  have hremove : d.removeChild p b.text = d.count.detach b.text := by rw [removeChild, if_pos hp]
  have hrelinked : Relinked d (d.count.detach b.text) :=
    (relinked_counted d 1).trans (relinked_detach d.count b.text)
  have hparent : ∀ m, d.parent? m = none → (d.count.detach b.text).parent? m = none := by
    intro m hm
    rw [parent?_detach]
    split
    · rfl
    · exact hm
  have hne : b.text ≠ c := fun he => (List.nodup_cons.1 (g.bears.nodup g.sound.forest)).1 (he ▸ htree)
  have hout : ∀ x ∈ pieces, ¬ Within x.1.root? x.2 b.text := fun x hx hw =>
    g.aside x hx _ hw (.inr htree)
  -- the text is in the list of children of its parent alone
  have hrow : ∀ q, b.text ∉ d.children q → (d.count.detach b.text).children q = d.children q := by
    intro q hq
    rw [children_detach hf]
    exact List.filter_eq_self.2 fun m hm => bne_iff_ne.2 fun he => hq (he ▸ hm)
  rw [hremove]
  refine ⟨⟨hf.detach _, g.sound.owned.relinked hrelinked⟩,
    g.bears.remove hrelinked fun q => children_detach hf _ q, fun r hr => hrelinked.has.2 (g.rooted r hr),
    fun h => by (cases h), fun x hx => ?_, g.apart,
    fun x hx k hk hw => g.aside x hx k hk (within_without hw),
    List.forall_mem_cons.2 ⟨?_, fun e he => ?_⟩, List.pairwise_cons.2 ⟨fun e he => ?_, hseparate.2⟩,
    fun k m hk => ?_⟩
  · refine (g.loose x hx).congr (fun m hm => hrelinked.unchanged (hrow m fun hmem => ?_)) fun k _ hk =>
      hparent k hk
    obtain rfl : p = m := Option.some.inj (hp.symm.trans (g.sound.forest.parent_of_mem hmem))
    exact g.aside x hx p hm (g.parent_within htree hp)
  · refine ⟨hplaceholder.trans hb, ?_, ?_, fun _ => ?_⟩
    · rw [htext]
      exact hrelinked.has.2 hhas
    · rw [htext, hrelinked.kind, hkind]
    · rw [htext, parent?_detach, if_pos rfl]
  · exact (g.supports e (List.mem_cons_of_mem _ he)).relinked hrelinked fun k m _ hnone => hparent _ hnone
  · have hs := hseparate.1 e he
    obtain ⟨b'', s⟩ := e
    cases b'' with
    | child k =>
      rw [Separate, htext]
      exact hs
    | _ => trivial
  · rcases List.mem_cons.1 hk with hk | hk
    · cases hk
      rw [htext]
      refine ⟨fun hw => ?_, hout⟩
      rcases hw with hw | hw
      · exact hne (Option.some.inj hw).symm
      · exact Plant.not_mem_without hw
    · have hhidden := g.hidden k m (List.mem_cons_of_mem _ hk)
      exact ⟨fun hw => hhidden.1 (within_without hw), hhidden.2⟩

end Ready

/-! ### Attributes -/

section Attribute

variable {a : AttributeId} {name : String} {value : Option String}

/-- The attributes of an element but one have other names. -/
theorem absent_of_forall {l : List AttributeId} {d' : Document}
    (h : ∀ b ∈ l, b ≠ a → (d'.attr b).name ≠ name) (ha : a ∉ l) :
    ∀ pair ∈ l.map fun b => ((d'.attr b).name, (d'.attr b).value), pair.1 ≠ name := by
  intro pair hpair
  obtain ⟨b, hb, rfl⟩ := List.mem_map.1 hpair
  exact h b hb fun hba => ha (hba ▸ hb)

/-- Giving an attribute that is on an element another value. -/
theorem pairs_setAttributeValue (ha : d.HasAttribute a) (hmem : a ∈ (d.node n).attributes)
    (hname : (d.attr a).name = name)
    (hother : ∀ b ∈ (d.node n).attributes, b ≠ a → (d.attr b).name ≠ name) (v : String) :
    (d.setAttributeValue a v).attributePairs n = revalue name (some v) (d.attributePairs n) := by
  have hre := reattributed_setAttributeValue d n a v
  have hany : (d.attributePairs n).any (·.1 == name) = true := by
    rw [List.any_eq_true]
    exact ⟨_, List.mem_map_of_mem hmem, by simpa using hname⟩
  rw [revalue, if_pos hany, attributePairs, attributePairs, List.map_map]
  refine List.map_congr_left fun b hb => ?_
  by_cases hba : b = a
  · rw [hba, attr_setAttributeValue ha]
    simp [hname]
  · rw [hre.attr b hba, Function.comp_apply, if_neg (hother b hb hba)]

/-- Taking an attribute off its element. -/
theorem pairs_takeAttribute (hs : d.Sound) (hmem : a ∈ (d.node n).attributes)
    (hname : (d.attr a).name = name)
    (hother : ∀ b ∈ (d.node n).attributes, b ≠ a → (d.attr b).name ≠ name) (hn : d.Has n) :
    (d.takeAttribute n a).attributePairs n = revalue name none (d.attributePairs n) := by
  have hre := reattributed_update d n a (·.erase a) none
  rw [takeAttribute_eq hmem, attributePairs, attributes_update (a := a) hn (·.erase a) none, revalue,
    attributePairs, List.filter_map, (hs.owned.nodup n).erase_eq_filter a]
  have hfilter : (d.node n).attributes.filter (· != a)
      = (d.node n).attributes.filter ((fun pair : String × String => pair.1 != name) ∘
          fun b => ((d.attr b).name, (d.attr b).value)) := by
    refine List.filter_congr fun b hb => ?_
    by_cases hba : b = a
    · simp [hba, hname]
    · rw [Function.comp_apply, bne_iff_ne.2 hba, bne_iff_ne.2 (hother b hb hba)]
  rw [← hfilter]
  refine List.map_congr_left fun b hb => ?_
  have hba : b ≠ a := by simpa using (List.mem_filter.1 hb).2
  rw [hre.attr b hba]

namespace Ready

/-- What becomes of an attribute: it gets another value on its element, or is put there or taken off. -/
inductive Valued (d : Document) (n : NodeId) (a : AttributeId) :
    Option String → Option String → Document → Prop where
  | keep (value : Option String) : Valued d n a value value d
  | change (old new : String) : Valued d n a (some old) (some new) (d.setAttributeValue a new)
  | put (new : String) : Valued d n a none (some new) ((d.setAttributeValue a new).putAttribute n a)
  | take (old : String) : Valued d n a (some old) none (d.takeAttribute n a)

/-- An attribute gets another value. -/
theorem revalue {value' : Option String} {attached : Bool} (attached' : Bool) {last : Option Value}
    (last' : Option Value) {d' : Document}
    (g : d.Ready (some c) ps pieces ((.attr n a attached last, .attr m name value) :: entries))
    (hpieces : ∀ x ∈ pieces, ¬ Within x.1.root? x.2 n) (h : Valued d n a value value' d') :
    ∃ f, (∀ l l' : List (String × String), l.Perm l' → (f l).Perm (f l')) ∧
      (∀ l l' : List (String × String), (∀ pair ∈ l, pair.1 ≠ name) → (∀ pair ∈ l', pair.1 ≠ name) →
        (f (l ++ value.toList.map (name, ·) ++ l')).Perm (l ++ value'.toList.map (name, ·) ++ l')) ∧
      d'.Ready (some c) (Plant.graftAll (Plant.adorn n f) ps) pieces
        ((.attr n a attached' last', .attr m name value') :: entries) ∧
      ((d' = d ∧ value = value') ∨ Reattributed d d' n a) := by
  obtain ⟨rfl, hhas, helement, ha, hname, hother, hfree, hput⟩ := g.supports _ (List.mem_cons_self ..)
  have hplace : a ∈ (d.node n).attributes → ∀ k, k ≠ n → a ∉ (d.node k).attributes := by
    intro hmem k hk hmem'
    exact hk (Option.some.inj ((g.sound.owned.owner hmem').symm.trans (g.sound.owned.owner hmem)))
  cases h with
  | keep =>
    refine ⟨id, fun _ _ h => h, fun _ _ _ _ => .refl _, ?_, .inl ⟨rfl, rfl⟩⟩
    have hself : Plant.graftAll (Plant.adorn n id) ps = ps := by
      refine Plant.graftAll_eq_self fun q _ => ?_
      cases q with
      | element k tag children =>
        rw [Plant.adorn]
        split <;> rfl
      | text | comment => rfl
    rw [hself]
    refine g.replace ⟨rfl, hhas, helement, ha, hname, hother, hfree, hput⟩ (fun e he => ?_)
      fun k m hk => by cases hk
    obtain ⟨b, s⟩ := e
    cases b <;> cases s <;> exact he
  | change old new =>
    obtain ⟨hmem, -⟩ := hput old rfl
    refine ⟨LiveMarkup.revalue name (some new), fun _ _ h => perm_revalue h,
      fun _ _ h h' => perm_revalue_of_absent h h', ?_, .inr (reattributed_setAttributeValue d n a new)⟩
    refine g.reattribute (g.sound.setAttributeValue a new) (reattributed_setAttributeValue d n a new)
      (pairs_setAttributeValue ha hmem hname hother new) (fun b _ => .rfl) (hplace hmem)
      (fun h => by cases h) (fun v hv => ?_) hpieces
    cases hv
    exact ⟨hmem, by rw [attr_setAttributeValue ha]⟩
  | put new =>
    have hfresh : ∀ k, a ∉ (d.node k).attributes := by
      intro k hk
      have howner := g.sound.owned.owner hk
      rw [hfree rfl] at howner
      cases howner
    obtain ⟨hsound, hre, hattr, hattributes⟩ := shown_attribute g.sound hhas helement ha (hfree rfl)
      (fun b hb he => hother b hb (fun hba => hfresh n (hba ▸ hb)) (he.trans hname)) new
    refine ⟨LiveMarkup.revalue name (some new), fun _ _ h => perm_revalue h,
      fun _ _ h h' => perm_revalue_of_absent h h', ?_, .inr hre⟩
    refine g.reattribute hsound hre ?_ (fun b hb => ?_) (fun k _ => hfresh k) (fun h => by cases h)
      (fun v hv => ?_) hpieces
    · have hnone : (d.attributePairs n).any (·.1 == name) = false := by
        rw [List.any_eq_false]
        intro pair hpair
        simpa using absent_of_forall hother (hfresh n) pair hpair
      rw [LiveMarkup.revalue, if_neg (by simp [hnone]), attributePairs, hattributes, List.map_append,
        List.map_singleton, hattr, hname]
      refine congrArg (· ++ _) (List.map_congr_left fun b hb => ?_)
      rw [hre.attr b fun hba => hfresh n (hba ▸ hb)]
    · rw [hattributes, List.mem_append, List.mem_singleton]
      exact or_iff_left hb
    · cases hv
      rw [hattributes, hattr]
      exact ⟨by simp, rfl⟩
  | take old =>
    obtain ⟨hmem, -⟩ := hput old rfl
    have hre : Reattributed d (d.takeAttribute n a) n a := by
      rw [takeAttribute_eq hmem]
      exact reattributed_update d n a (·.erase a) none
    refine ⟨LiveMarkup.revalue name none, fun _ _ h => perm_revalue h,
      fun _ _ h h' => perm_revalue_of_absent h h', ?_, .inr hre⟩
    refine g.reattribute ⟨hre.forest g.sound.forest, ?_⟩ hre
      (pairs_takeAttribute g.sound hmem hname hother hhas) (fun b hb => ?_) (hplace hmem)
      (fun _ => ?_) (fun v hv => by cases hv) hpieces
    · rw [takeAttribute_eq hmem]
      exact owned_take g.sound.owned hmem
    · rw [takeAttribute_eq hmem, attributes_update (a := a) hhas (·.erase a) none]
      exact List.mem_erase_of_ne hb
    · rw [takeAttribute_eq hmem, attr_update_owner ha (·.erase a) none]

end Ready

end Attribute

end Document

end LiveMarkup
