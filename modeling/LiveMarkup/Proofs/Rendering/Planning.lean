import LiveMarkup.Proofs.Rendering.Expansion
/-!
# The plan for a value

When all templates in a value compile, its plan is known beforehand (`Value.toPlan`), whatever has been
compiled already: the catalogue only remembers what compiling a template gives (`Catalogue.Sound`).
A value that fits has a plan that fits.
-/

namespace LiveMarkup

/-- Whether a value is an invocation. -/
def Value.IsInvocation (v : Value) : Prop :=
  ∃ space template values, v = .invocation space template values

mutual

/-- The plan for a value whose templates compile. -/
def Value.toPlan : Value → Plan
  | .invocation space template values =>
    .use space template (template.compilation space).compiled (toPlans values)
  | .list items => .list (toPlans items)
  | v => .leaf v

/-- The plans for some values. -/
def Value.toPlans : List Value → List Plan
  | [] => []
  | v :: rest => v.toPlan :: toPlans rest

end

/-- The values that can be shown in a child hole: null, a primitive, an invocation, a list of invocations,
or a list of primitives and nulls that starts with a primitive. The templates compile, and are plain
ones that have null or a primitive in each attribute or text hole. -/
inductive Value.Fits : Value → Prop where
  | plain {v : Value} (h : v.IsPlain) : Fits v
  | invocation {space : Markup.Namespace} {template : Template} {values : List Value}
      (complete : (template.compilation space).isComplete = true)
      (plain : (template.compilation space).compiled.Plain)
      (count : (template.compilation space).compiled.holes.length = values.length)
      (fits : ∀ v ∈ values, Fits v)
      (leaves : ∀ h ∈ (template.compilation space).compiled.holes.zip values,
        h.1.kind ≠ .child → h.2.IsPlain) : Fits (.invocation space template values)
  | list {items : List Value} (fits : ∀ v ∈ items, Fits v)
      (invocations : ∀ v ∈ items, v.IsInvocation) : Fits (.list items)
  | texts {v : Value} {rest : List Value} (hv : v.isPrimitive = true)
      (h : ∀ w ∈ rest, w.IsPlain) : Fits (.list (v :: rest))

namespace Value

theorem toPlans_eq_map (vs : List Value) : toPlans vs = vs.map toPlan := by
  induction vs with
  | nil => rw [toPlans, List.map_nil]
  | cons v vs ih => rw [toPlans, ih, List.map_cons]

theorem IsPlain.ne_invocation {v : Value} (h : v.IsPlain) (space : Markup.Namespace)
    (template : Template) (values : List Value) : v ≠ .invocation space template values := by
  rintro rfl
  rcases h with h | h <;> cases h

theorem IsPlain.ne_list {v : Value} (h : v.IsPlain) (items : List Value) : v ≠ .list items := by
  rintro rfl
  rcases h with h | h <;> cases h

theorem toPlan_of_isPlain {v : Value} (h : v.IsPlain) : v.toPlan = .leaf v := by
  rw [toPlan]
  · exact h.ne_invocation
  · exact h.ne_list

theorem toPlans_of_isPlain {vs : List Value} (h : ∀ v ∈ vs, v.IsPlain) :
    toPlans vs = vs.map .leaf := by
  rw [toPlans_eq_map]
  exact List.map_congr_left fun v hv => toPlan_of_isPlain (h v hv)

/-- The plan for a value that fits does so as well. -/
theorem Fits.toPlan {v : Value} (h : v.Fits) : v.toPlan.Fits := by
  induction h with
  | plain h =>
    rw [toPlan_of_isPlain h]
    exact .leaf h
  | @invocation space template values complete plain count fits leaves ih =>
    rw [Value.toPlan, toPlans_eq_map]
    refine .use (Template.coherent_compilation space template) plain (by rw [count, List.length_map])
      (fun p hp => ?_) fun h hh hkind => ?_
    · obtain ⟨v, hv, rfl⟩ := List.mem_map.1 hp
      exact ih v hv
    · rw [List.zip_map_right, List.mem_map] at hh
      obtain ⟨⟨h', v⟩, hmem, rfl⟩ := hh
      exact ⟨v, toPlan_of_isPlain (leaves _ hmem hkind)⟩
  | @list items fits invocations ih =>
    rw [Value.toPlan, toPlans_eq_map]
    refine .list (fun p hp => ?_) fun p hp => ?_
    · obtain ⟨v, hv, rfl⟩ := List.mem_map.1 hp
      exact ih v hv
    · obtain ⟨v, hv, rfl⟩ := List.mem_map.1 hp
      obtain ⟨space, template, values, rfl⟩ := invocations v hv
      exact ⟨space, template, _, _, by rw [Value.toPlan]⟩
  | @texts v rest hv h =>
    rw [Value.toPlan, toPlans_of_isPlain (List.forall_mem_cons.2 ⟨.inr hv, h⟩)]
    exact .texts hv h

end Value

/-! ### The catalogue -/

namespace Catalogue

variable {c : Catalogue} {space : Markup.Namespace} {template : Template}

/-- What is remembered is what compiling gives. -/
def Sound (c : Catalogue) : Prop :=
  ∀ space template compiled, c.entries.lookup (space, template) = some compiled →
    (template.compilation space).isComplete = true ∧
      compiled = (template.compilation space).compiled

theorem sound_empty : Catalogue.empty.Sound := fun _ _ _ h => by cases h

/-- Compiling is remembered, and gives the same again. -/
theorem compile_eq (hc : c.Sound) (hcomplete : (template.compilation space).isComplete = true) :
    ∃ c', c.compile space template = (.ok (template.compilation space).compiled, c') ∧ c'.Sound := by
  rw [compile]
  split
  · rename_i compiled hlookup
    rw [(hc space template compiled hlookup).2]
    exact ⟨c, rfl, hc⟩
  · rename_i hlookup
    rw [if_pos hcomplete]
    refine ⟨_, rfl, fun space' template' compiled h => ?_⟩
    dsimp only at h
    rw [List.lookup_cons] at h
    split at h
    · rename_i hkey
      cases h
      obtain ⟨rfl, rfl⟩ := Prod.mk.inj (eq_of_beq hkey)
      exact ⟨hcomplete, rfl⟩
    · exact hc space' template' compiled h

/-- A template that has lost a marker is not compiled, and was not before. -/
theorem compile_of_lost (hc : c.Sound) (hlost : (template.compilation space).isComplete = false) :
    (c.compile space template).1 = .error (.markersLost (Template.markHoles template.segments)
      template.gaps (template.compilation space).compiled.holes.length) := by
  rw [compile]
  split
  · rename_i compiled hlookup
    rw [(hc space template compiled hlookup).1] at hlost
    cases hlost
  · rw [if_neg (by simp [hlost])]
    rfl

/-- What compiling gives is what the template compiles to. -/
theorem eq_of_compile {compiled : Compiled} (hc : c.Sound)
    (h : (c.compile space template).1 = .ok compiled) :
    (template.compilation space).isComplete = true ∧
      compiled = (template.compilation space).compiled := by
  cases hcomplete : (template.compilation space).isComplete with
  | true =>
    obtain ⟨c', hcompile, -⟩ := compile_eq hc hcomplete
    rw [hcompile] at h
    cases h
    exact ⟨rfl, rfl⟩
  | false =>
    rw [compile_of_lost hc hcomplete] at h
    cases h

theorem prepare_eq (hc : c.Sound) (hcomplete : (template.compilation space).isComplete = true)
    {n : Nat} (hn : (template.compilation space).compiled.holes.length = n) :
    ∃ c', c.prepare space template n = (.ok (template.compilation space).compiled, c') ∧
      c'.Sound := by
  obtain ⟨c', hcompile, hc'⟩ := compile_eq hc hcomplete
  refine ⟨c', ?_, hc'⟩
  rw [prepare, hcompile]
  exact if_pos hn

theorem plan_of_isPlain {v : Value} (h : v.IsPlain) : c.plan v = (.ok (.leaf v), c) := by
  rw [plan]
  · exact h.ne_invocation
  · exact h.ne_list

/-- The plans for some values, one after another. -/
theorem planAll_eq {vs : List Value}
    (h : ∀ v ∈ vs, ∀ c : Catalogue, c.Sound → ∃ c', c.plan v = (.ok v.toPlan, c') ∧ c'.Sound)
    (hc : c.Sound) : ∃ c', c.planAll vs = (.ok (Value.toPlans vs), c') ∧ c'.Sound := by
  induction vs generalizing c with
  | nil =>
    rw [planAll, Value.toPlans]
    exact ⟨c, rfl, hc⟩
  | cons v vs ih =>
    obtain ⟨c₁, hplan, hc₁⟩ := h v (List.mem_cons_self ..) c hc
    obtain ⟨c₂, hplans, hc₂⟩ := ih (fun v hv => h v (List.mem_cons_of_mem _ hv)) hc₁
    refine ⟨c₂, ?_, hc₂⟩
    rw [planAll, hplan]
    dsimp only
    rw [hplans, Value.toPlans]

/-- The plans for the items of a list, which are all invocations or all plain. -/
theorem planItems_eq {vs : List Value}
    (h : ∀ v ∈ vs, ∀ c : Catalogue, c.Sound → ∃ c', c.plan v = (.ok v.toPlan, c') ∧ c'.Sound)
    (hvs : ∀ v ∈ vs, v.IsInvocation ∨ v.IsPlain) (hc : c.Sound) :
    ∃ c', c.planItems vs = (.ok (Value.toPlans vs), c') ∧ c'.Sound := by
  induction vs generalizing c with
  | nil =>
    rw [planItems, Value.toPlans]
    exact ⟨c, rfl, hc⟩
  | cons v vs ih =>
    obtain ⟨c₁, hplan, hc₁⟩ := h v (List.mem_cons_self ..) c hc
    obtain ⟨c₂, hplans, hc₂⟩ := ih (fun v hv => h v (List.mem_cons_of_mem _ hv))
      (fun v hv => hvs v (List.mem_cons_of_mem _ hv)) hc₁
    refine ⟨c₂, ?_, hc₂⟩
    rcases hvs v (List.mem_cons_self ..) with ⟨space, template, values, rfl⟩ | hplain
    · rw [planItems, hplan]
      dsimp only
      rw [hplans, Value.toPlans]
    · rw [plan_of_isPlain hplain, Value.toPlan_of_isPlain hplain] at hplan
      cases hplan
      rw [planItems, hplans, Value.toPlans, Value.toPlan_of_isPlain hplain]
      exact hplain.ne_invocation

/-- A value that fits has its plan, whatever has been compiled before. -/
theorem plan_eq {v : Value} (hv : v.Fits) (hc : c.Sound) :
    ∃ c', c.plan v = (.ok v.toPlan, c') ∧ c'.Sound := by
  induction hv generalizing c with
  | plain h =>
    rw [plan_of_isPlain h, Value.toPlan_of_isPlain h]
    exact ⟨c, rfl, hc⟩
  | @invocation space template values complete _ count _ _ ih =>
    obtain ⟨c₁, hprepare, hc₁⟩ := prepare_eq hc complete count
    obtain ⟨c₂, hplans, hc₂⟩ := planAll_eq (fun v hv c hc => ih v hv hc) hc₁
    refine ⟨c₂, ?_, hc₂⟩
    rw [plan, hprepare]
    dsimp only
    rw [hplans, Value.toPlan]
  | @list items _ invocations ih =>
    obtain ⟨c', hplans, hc'⟩ := planItems_eq (fun v hv c hc => ih v hv hc)
      (fun v hv => .inl (invocations v hv)) hc
    refine ⟨c', ?_, hc'⟩
    rw [plan, hplans, Value.toPlan]
  | @texts v rest hv h =>
    have hplain : ∀ w ∈ v :: rest, w.IsPlain := List.forall_mem_cons.2 ⟨.inr hv, h⟩
    obtain ⟨c', hplans, hc'⟩ := planItems_eq (fun w hw c hc => ⟨c, by
      rw [plan_of_isPlain (hplain w hw), Value.toPlan_of_isPlain (hplain w hw)], hc⟩)
      (fun w hw => .inr (hplain w hw)) hc
    refine ⟨c', ?_, hc'⟩
    rw [plan, hplans, Value.toPlan]

/-- An invocation that fits has its use, whatever has been compiled before. -/
theorem planUse_eq {values : List Value} (hv : (Value.invocation space template values).Fits)
    (hc : c.Sound) :
    ∃ c', c.planUse space template values
      = (.ok ⟨space, template, (template.compilation space).compiled, Value.toPlans values⟩, c') ∧
      c'.Sound := by
  cases hv with
  | plain h => rcases h with h | h <;> cases h
  | invocation complete _ count fits =>
    obtain ⟨c₁, hprepare, hc₁⟩ := prepare_eq hc complete count
    obtain ⟨c₂, hplans, hc₂⟩ := planAll_eq (fun v hv c hc => plan_eq (fits v hv) hc) hc₁
    refine ⟨c₂, ?_, hc₂⟩
    rw [planUse, hprepare]
    dsimp only
    rw [hplans]

end Catalogue

end LiveMarkup
