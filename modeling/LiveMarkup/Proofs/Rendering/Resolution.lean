import LiveMarkup.Proofs.Rendering.Planning
/-!
# What planning finds out

To plan a value is to compile the template of each invocation in it and to count its values. When this
succeeds, the catalogue has a compiled template for each of them from then on (`Catalogue.Resolves`), so
none has to be compiled while the value is shown. It succeeds exactly for the values in which every
template compiles and is used with as many values as it has holes (`Value.Usable`), whatever has been
compiled before.
-/

namespace LiveMarkup

/-- Whether a value has no invocations to look for. -/
def Value.IsLeaf : Value → Prop
  | .invocation .. | .list _ => False
  | _ => True

/-- Values in which every template compiles and is used with the right number of values. A list inside a
list is not looked at. -/
inductive Value.Usable : Value → Prop where
  | leaf {v : Value} (h : v.IsLeaf) : Usable v
  | invocation {space : Markup.Namespace} {template : Template} {values : List Value}
      (complete : (template.compilation space).isComplete = true)
      (count : (template.compilation space).compiled.holes.length = values.length)
      (usable : ∀ v ∈ values, Usable v) : Usable (.invocation space template values)
  | list {items : List Value} (usable : ∀ v ∈ items, v.IsInvocation → Usable v) :
      Usable (.list items)

namespace Value

theorem IsLeaf.ne_invocation {v : Value} (h : v.IsLeaf) (space : Markup.Namespace)
    (template : Template) (values : List Value) : v ≠ .invocation space template values := by
  rintro rfl
  exact h

theorem IsLeaf.ne_list {v : Value} (h : v.IsLeaf) (items : List Value) : v ≠ .list items := by
  rintro rfl
  exact h

theorem shape_eq_invocation {v : Value} : v.shape = .invocation ↔ v.IsInvocation := by
  refine ⟨fun h => ?_, ?_⟩
  · cases v with
    | invocation space template values => exact ⟨space, template, values, rfl⟩
    | _ => cases h
  · rintro ⟨space, template, values, rfl⟩
    rfl

/-- Induction over values and lists of values side by side. -/
theorem induct {motive : Value → Prop} {motives : List Value → Prop}
    (leaf : ∀ v : Value, v.IsLeaf → motive v)
    (invocation : ∀ space template values, motives values →
      motive (.invocation space template values))
    (list : ∀ items, motives items → motive (.list items))
    (nil : motives []) (cons : ∀ v vs, motive v → motives vs → motives (v :: vs)) :
    (∀ v, motive v) ∧ ∀ vs, motives vs :=
  ⟨@Value.rec motive motives (leaf _ trivial) (fun _ => leaf _ trivial) (fun _ => leaf _ trivial)
      (fun _ => leaf _ trivial) (fun _ => leaf _ trivial) (fun _ => leaf _ trivial) list invocation
      (fun _ => leaf _ trivial) (fun _ => leaf _ trivial) (fun _ => leaf _ trivial) nil cons,
    @Value.rec_1 motive motives (leaf _ trivial) (fun _ => leaf _ trivial) (fun _ => leaf _ trivial)
      (fun _ => leaf _ trivial) (fun _ => leaf _ trivial) (fun _ => leaf _ trivial) list invocation
      (fun _ => leaf _ trivial) (fun _ => leaf _ trivial) (fun _ => leaf _ trivial) nil cons⟩

end Value

namespace Catalogue

variable {c c' c'' : Catalogue} {space : Markup.Namespace} {template : Template}

/-! ### Compiling -/

/-- What a catalogue has compiled, another one has as well. -/
structure Extends (c c' : Catalogue) : Prop where
  sound : c.Sound → c'.Sound
  entries : ∀ key compiled, c.entries.lookup key = some compiled →
    c'.entries.lookup key = some compiled

theorem Extends.refl (c : Catalogue) : c.Extends c :=
  ⟨id, fun _ _ => id⟩

theorem Extends.trans (h : c.Extends c') (h' : c'.Extends c'') : c.Extends c'' :=
  ⟨h'.sound ∘ h.sound, fun _ _ hk => h'.entries _ _ (h.entries _ _ hk)⟩

theorem extends_compile (c : Catalogue) (space : Markup.Namespace) (template : Template) :
    c.Extends (c.compile space template).2 := by
  rw [compile]
  split
  · exact .refl c
  · rename_i hnew
    dsimp only
    split
    · rename_i hcomplete
      refine ⟨fun hc space' template' compiled h => ?_, fun key compiled h => ?_⟩
      · dsimp only at h
        rw [List.lookup_cons] at h
        split at h
        · rename_i hkey
          cases h
          obtain ⟨rfl, rfl⟩ := Prod.mk.inj (eq_of_beq hkey)
          exact ⟨hcomplete, rfl⟩
        · exact hc space' template' compiled h
      · dsimp only
        rw [List.lookup_cons]
        split
        · rename_i hkey
          rw [eq_of_beq hkey, hnew] at h
          cases h
        · exact h
    · exact ⟨id, fun _ _ => id⟩

/-- A template that has been compiled is remembered. -/
theorem lookup_compile {compiled : Compiled} (h : c.compile space template = (.ok compiled, c')) :
    c'.entries.lookup (space, template) = some compiled := by
  rw [compile] at h
  split at h
  · rename_i hlookup
    cases h
    exact hlookup
  · dsimp only at h
    split at h
    · cases h
      rw [List.lookup_cons_self]
    · cases h

/-- A relation between a catalogue and a later one that compiling stays within. -/
structure Respects (R : Catalogue → Catalogue → Prop) : Prop where
  refl : ∀ c, R c c
  trans : ∀ {c c' c''}, R c c' → R c' c'' → R c c''
  compile : ∀ c space template, R c (c.compile space template).2

theorem respects_extends : Respects Extends :=
  ⟨.refl, .trans, extends_compile⟩

theorem Respects.prepare {R : Catalogue → Catalogue → Prop} (hR : Respects R) (c : Catalogue)
    (space : Markup.Namespace) (template : Template) (n : Nat) : R c (c.prepare space template n).2 := by
  have h := hR.compile c space template
  rw [Catalogue.prepare]
  split <;> rename_i heq <;> rw [heq] at h
  · exact h
  · split <;> exact h

theorem prepare_ok {compiled : Compiled} {n : Nat}
    (h : c.prepare space template n = (.ok compiled, c')) :
    c'.entries.lookup (space, template) = some compiled ∧ compiled.holes.length = n := by
  rw [prepare] at h
  split at h
  · cases h
  · rename_i hcompile
    split at h
    · rename_i hn
      cases h
      exact ⟨lookup_compile hcompile, hn⟩
    · cases h

/-! ### Plans -/

theorem plan_of_isLeaf {v : Value} (h : v.IsLeaf) : c.plan v = (.ok (.leaf v), c) := by
  rw [plan]
  · exact h.ne_invocation
  · exact h.ne_list

theorem planItems_cons_of_not_isInvocation {v : Value} (h : ¬ v.IsInvocation) (vs : List Value) :
    c.planItems (v :: vs) = match c.planItems vs with
      | (.error e, c) => (.error e, c)
      | (.ok others, c) => (.ok (.leaf v :: others), c) := by
  cases v with
  | invocation space template values => exact absurd ⟨space, template, values, rfl⟩ h
  | _ => rfl

/-- Planning does nothing to a catalogue but compile. -/
theorem Respects.plan {R : Catalogue → Catalogue → Prop} (hR : Respects R) :
    (∀ (v : Value) (c : Catalogue), R c (c.plan v).2) ∧
      ∀ (vs : List Value) (c : Catalogue), R c (c.planAll vs).2 ∧ R c (c.planItems vs).2 := by
  refine Value.induct ?_ ?_ ?_ ?_ ?_
  · intro v hv c
    rw [plan_of_isLeaf hv]
    exact hR.refl c
  · intro space template values ih c
    have h := hR.prepare c space template values.length
    rw [Catalogue.plan]
    split <;> rename_i heq <;> rw [heq] at h
    · exact h
    · rename_i c₁
      have h' := (ih c₁).1
      split <;> rename_i heq' <;> rw [heq'] at h' <;> exact hR.trans h h'
  · intro items ih c
    have h := (ih c).2
    rw [Catalogue.plan]
    split <;> rename_i heq <;> rw [heq] at h <;> exact h
  · intro c
    exact ⟨hR.refl c, hR.refl c⟩
  · intro v vs ihv ihvs c
    refine ⟨?_, ?_⟩
    · have h := ihv c
      rw [planAll]
      split <;> rename_i heq <;> rw [heq] at h
      · exact h
      · rename_i c₁
        have h' := (ihvs c₁).1
        split <;> rename_i heq' <;> rw [heq'] at h' <;> exact hR.trans h h'
    · by_cases hv : v.IsInvocation
      · obtain ⟨space, template, values, rfl⟩ := hv
        have h := ihv c
        rw [planItems]
        split <;> rename_i heq <;> rw [heq] at h
        · exact h
        · rename_i c₁
          have h' := (ihvs c₁).2
          split <;> rename_i heq' <;> rw [heq'] at h' <;> exact hR.trans h h'
      · have h := (ihvs c).2
        rw [planItems_cons_of_not_isInvocation hv]
        split <;> rename_i heq <;> rw [heq] at h <;> exact h

theorem Respects.planUse {R : Catalogue → Catalogue → Prop} (hR : Respects R) (c : Catalogue)
    (space : Markup.Namespace) (template : Template) (values : List Value) :
    R c (c.planUse space template values).2 := by
  have h := hR.prepare c space template values.length
  rw [Catalogue.planUse]
  split <;> rename_i heq <;> rw [heq] at h
  · exact h
  · rename_i c₁
    have h' := (hR.plan.2 values c₁).1
    split <;> rename_i heq' <;> rw [heq'] at h' <;> exact hR.trans h h'

theorem extends_plan :
    (∀ (v : Value) (c : Catalogue), c.Extends (c.plan v).2) ∧
      ∀ (vs : List Value) (c : Catalogue),
        c.Extends (c.planAll vs).2 ∧ c.Extends (c.planItems vs).2 :=
  respects_extends.plan

theorem extends_planUse (c : Catalogue) (space : Markup.Namespace) (template : Template)
    (values : List Value) : c.Extends (c.planUse space template values).2 :=
  respects_extends.planUse c space template values

mutual

/-- A plan is the one for a value, with the compiled templates that the catalogue has. -/
inductive Resolves (c : Catalogue) : Value → Plan → Prop where
  | leaf {v : Value} (hv : v.IsLeaf) : Resolves c v (.leaf v)
  | use {space : Markup.Namespace} {template : Template} {compiled : Compiled} {values : List Value}
      {plans : List Plan} (known : c.entries.lookup (space, template) = some compiled)
      (count : compiled.holes.length = values.length) (holes : ResolvesAll c values plans) :
      Resolves c (.invocation space template values) (.use space template compiled plans)
  | list {values : List Value} {plans : List Plan} (items : ResolvesItems c values plans) :
      Resolves c (.list values) (.list plans)

/-- Some plans are those for the values of some holes. -/
inductive ResolvesAll (c : Catalogue) : List Value → List Plan → Prop where
  | nil : ResolvesAll c [] []
  | cons {v : Value} {vs : List Value} {p : Plan} {ps : List Plan} (first : Resolves c v p)
      (rest : ResolvesAll c vs ps) : ResolvesAll c (v :: vs) (p :: ps)

/-- Some plans are those for the items of a list. -/
inductive ResolvesItems (c : Catalogue) : List Value → List Plan → Prop where
  | nil : ResolvesItems c [] []
  | leaf {v : Value} {vs : List Value} {ps : List Plan} (hv : ¬ v.IsInvocation)
      (rest : ResolvesItems c vs ps) : ResolvesItems c (v :: vs) (.leaf v :: ps)
  | use {space : Markup.Namespace} {template : Template} {compiled : Compiled} {values : List Value}
      {plans : List Plan} {vs : List Value} {ps : List Plan}
      (first : Resolves c (.invocation space template values) (.use space template compiled plans))
      (rest : ResolvesItems c vs ps) :
      ResolvesItems c (.invocation space template values :: vs)
        (.use space template compiled plans :: ps)

end

/-- Induction over the plans for values, for holes and for items side by side. -/
theorem resolves_induct {motive : Value → Plan → Prop} {all items : List Value → List Plan → Prop}
    (leaf : ∀ v : Value, v.IsLeaf → motive v (.leaf v))
    (use : ∀ space template compiled values plans,
      c.entries.lookup (space, template) = some compiled → compiled.holes.length = values.length →
      all values plans →
      motive (.invocation space template values) (.use space template compiled plans))
    (list : ∀ values plans, items values plans → motive (.list values) (.list plans))
    (allNil : all [] [])
    (allCons : ∀ v vs p ps, motive v p → all vs ps → all (v :: vs) (p :: ps))
    (itemsNil : items [] [])
    (itemsLeaf : ∀ (v : Value) vs ps, ¬ v.IsInvocation → items vs ps →
      items (v :: vs) (.leaf v :: ps))
    (itemsUse : ∀ space template compiled values plans vs ps,
      motive (.invocation space template values) (.use space template compiled plans) →
      items vs ps →
      items (.invocation space template values :: vs) (.use space template compiled plans :: ps)) :
    (∀ {v p}, c.Resolves v p → motive v p) ∧ (∀ {vs ps}, c.ResolvesAll vs ps → all vs ps) ∧
      ∀ {vs ps}, c.ResolvesItems vs ps → items vs ps := by
  have hleaf := fun {v : Value} (hv : v.IsLeaf) => leaf v hv
  have huse := fun {space template compiled values plans}
    (known : c.entries.lookup (space, template) = some compiled)
    (count : compiled.holes.length = values.length) (_ : c.ResolvesAll values plans)
    (ih : all values plans) => use space template compiled values plans known count ih
  exact ⟨fun h => @Resolves.rec c (fun v p _ => motive v p) (fun vs ps _ => all vs ps)
      (fun vs ps _ => items vs ps) hleaf huse (fun _ ih => list _ _ ih) allNil
      (fun _ _ ih ih' => allCons _ _ _ _ ih ih') itemsNil (fun hv _ ih => itemsLeaf _ _ _ hv ih)
      (fun _ _ ih ih' => itemsUse _ _ _ _ _ _ _ ih ih') _ _ h,
    fun h => @ResolvesAll.rec c (fun v p _ => motive v p) (fun vs ps _ => all vs ps)
      (fun vs ps _ => items vs ps) hleaf huse (fun _ ih => list _ _ ih) allNil
      (fun _ _ ih ih' => allCons _ _ _ _ ih ih') itemsNil (fun hv _ ih => itemsLeaf _ _ _ hv ih)
      (fun _ _ ih ih' => itemsUse _ _ _ _ _ _ _ ih ih') _ _ h,
    fun h => @ResolvesItems.rec c (fun v p _ => motive v p) (fun vs ps _ => all vs ps)
      (fun vs ps _ => items vs ps) hleaf huse (fun _ ih => list _ _ ih) allNil
      (fun _ _ ih ih' => allCons _ _ _ _ ih ih') itemsNil (fun hv _ ih => itemsLeaf _ _ _ hv ih)
      (fun _ _ ih ih' => itemsUse _ _ _ _ _ _ _ ih ih') _ _ h⟩

theorem resolves_mono (h : c.Extends c') :
    (∀ {v p}, c.Resolves v p → c'.Resolves v p) ∧
      (∀ {vs ps}, c.ResolvesAll vs ps → c'.ResolvesAll vs ps) ∧
      ∀ {vs ps}, c.ResolvesItems vs ps → c'.ResolvesItems vs ps := by
  refine resolves_induct ?_ ?_ ?_ ?_ ?_ ?_ ?_ ?_
  · exact fun _ hv => .leaf hv
  · exact fun _ _ _ _ _ hk hn ih => .use (h.entries _ _ hk) hn ih
  · exact fun _ _ ih => .list ih
  · exact .nil
  · exact fun _ _ _ _ ih ih' => .cons ih ih'
  · exact .nil
  · exact fun _ _ _ hv ih => .leaf hv ih
  · exact fun _ _ _ _ _ _ _ ih ih' => .use ih ih'

/-- A plan that is found is the one for the value. -/
theorem plan_resolves :
    (∀ (v : Value) {c c' : Catalogue} {p : Plan}, c.plan v = (.ok p, c') → c'.Resolves v p) ∧
      ∀ (vs : List Value) {c c' : Catalogue} {ps : List Plan},
        (c.planAll vs = (.ok ps, c') → c'.ResolvesAll vs ps) ∧
          (c.planItems vs = (.ok ps, c') → c'.ResolvesItems vs ps) := by
  refine Value.induct ?_ ?_ ?_ ?_ ?_
  · intro v hv c c' p h
    rw [plan_of_isLeaf hv] at h
    cases h
    exact .leaf hv
  · intro space template values ih c c' p h
    rw [plan] at h
    split at h
    · cases h
    · rename_i compiled c₁ hprepare
      obtain ⟨hknown, hcount⟩ := prepare_ok hprepare
      have hextends := (extends_plan.2 values c₁).1
      split at h
      · cases h
      · rename_i hplans
        cases h
        rw [hplans] at hextends
        exact .use (hextends.entries _ _ hknown) hcount (ih.1 hplans)
  · intro items ih c c' p h
    rw [plan] at h
    split at h
    · cases h
    · rename_i hplans
      cases h
      exact .list (ih.2 hplans)
  · intro c c' ps
    refine ⟨fun h => ?_, fun h => ?_⟩
    · rw [planAll] at h
      cases h
      exact .nil
    · rw [planItems] at h
      cases h
      exact .nil
  · intro v vs ihv ihvs c c' ps
    refine ⟨fun h => ?_, fun h => ?_⟩
    · rw [planAll] at h
      split at h
      · cases h
      · rename_i c₁ hplan
        have hextends := (extends_plan.2 vs c₁).1
        split at h
        · cases h
        · rename_i hplans
          cases h
          rw [hplans] at hextends
          exact .cons ((resolves_mono hextends).1 (ihv hplan)) (ihvs.1 hplans)
    · by_cases hv : v.IsInvocation
      · obtain ⟨space, template, values, rfl⟩ := hv
        rw [planItems] at h
        split at h
        · cases h
        · rename_i c₁ hplan
          have hextends := (extends_plan.2 vs c₁).2
          split at h
          · cases h
          · rename_i hplans
            cases h
            rw [hplans] at hextends
            have hfirst := (resolves_mono hextends).1 (ihv hplan)
            cases hfirst with
            | leaf hv => exact hv.elim
            | use known count holes => exact .use (.use known count holes) (ihvs.2 hplans)
      · rw [planItems_cons_of_not_isInvocation hv] at h
        split at h
        · cases h
        · rename_i hplans
          cases h
          exact .leaf hv (ihvs.2 hplans)

theorem planUse_resolves {values : List Value} {use : Use}
    (h : c.planUse space template values = (.ok use, c')) :
    c'.Resolves (.invocation space template values)
      (.use use.space use.template use.compiled use.holes) := by
  refine plan_resolves.1 _ (c := c) ?_
  rw [planUse] at h
  rw [plan]
  split at h
  · cases h
  · split at h
    · cases h
    · cases h
      rfl

/-! ### Values that have a plan -/

/-- Values with a plan are usable. -/
theorem resolves_usable (hc : c.Sound) :
    (∀ {v p}, c.Resolves v p → v.Usable) ∧
      (∀ {vs ps}, c.ResolvesAll vs ps → ∀ v ∈ vs, v.Usable) ∧
      ∀ {vs ps}, c.ResolvesItems vs ps → ∀ v ∈ vs, v.IsInvocation → v.Usable := by
  refine resolves_induct ?_ ?_ ?_ ?_ ?_ ?_ ?_ ?_
  · exact fun _ hv => .leaf hv
  · intro space template compiled values plans hk hn ih
    obtain ⟨hcomplete, rfl⟩ := hc space template compiled hk
    exact .invocation hcomplete hn ih
  · exact fun _ _ ih => .list ih
  · exact fun _ hv => by cases hv
  · exact fun _ _ _ _ ih ih' => List.forall_mem_cons.2 ⟨ih, ih'⟩
  · exact fun _ hv => by cases hv
  · exact fun _ _ _ hv ih => List.forall_mem_cons.2 ⟨fun h => (hv h).elim, ih⟩
  · exact fun _ _ _ _ _ _ _ ih ih' => List.forall_mem_cons.2 ⟨fun _ => ih, ih'⟩

theorem planAll_of_usable {vs : List Value}
    (h : ∀ v ∈ vs, ∀ c : Catalogue, c.Sound → ∃ p c', c.plan v = (.ok p, c')) (hc : c.Sound) :
    ∃ ps c', c.planAll vs = (.ok ps, c') := by
  induction vs generalizing c with
  | nil => exact ⟨[], c, rfl⟩
  | cons v vs ih =>
    obtain ⟨p, c₁, hplan⟩ := h v (List.mem_cons_self ..) c hc
    have hextends := extends_plan.1 v c
    rw [hplan] at hextends
    obtain ⟨ps, c₂, hplans⟩ := ih (fun v hv => h v (List.mem_cons_of_mem _ hv)) (hextends.sound hc)
    refine ⟨p :: ps, c₂, ?_⟩
    rw [planAll, hplan]
    dsimp only
    rw [hplans]

theorem planItems_of_usable {vs : List Value}
    (h : ∀ v ∈ vs, v.IsInvocation → ∀ c : Catalogue, c.Sound → ∃ p c', c.plan v = (.ok p, c'))
    (hc : c.Sound) : ∃ ps c', c.planItems vs = (.ok ps, c') := by
  induction vs generalizing c with
  | nil => exact ⟨[], c, rfl⟩
  | cons v vs ih =>
    have hrest := fun v hv => h v (List.mem_cons_of_mem _ hv)
    by_cases hv : v.IsInvocation
    · obtain ⟨p, c₁, hplan⟩ := h v (List.mem_cons_self ..) hv c hc
      have hextends := extends_plan.1 v c
      rw [hplan] at hextends
      obtain ⟨ps, c₂, hplans⟩ := ih hrest (hextends.sound hc)
      obtain ⟨space, template, values, rfl⟩ := hv
      refine ⟨p :: ps, c₂, ?_⟩
      rw [planItems, hplan]
      dsimp only
      rw [hplans]
    · obtain ⟨ps, c', hplans⟩ := ih hrest hc
      refine ⟨.leaf v :: ps, c', ?_⟩
      rw [planItems_cons_of_not_isInvocation hv, hplans]

/-- Usable values have a plan, whatever has been compiled before. -/
theorem plan_of_usable {v : Value} (hv : v.Usable) (hc : c.Sound) :
    ∃ p c', c.plan v = (.ok p, c') := by
  induction hv generalizing c with
  | leaf h => exact ⟨_, _, plan_of_isLeaf h⟩
  | @invocation space template values complete count _ ih =>
    obtain ⟨c₁, hprepare, hc₁⟩ := prepare_eq hc complete count
    obtain ⟨ps, c₂, hplans⟩ := planAll_of_usable (fun v hv c hc => ih v hv hc) hc₁
    refine ⟨.use space template (template.compilation space).compiled ps, c₂, ?_⟩
    rw [plan, hprepare]
    dsimp only
    rw [hplans]
  | @list items _ ih =>
    obtain ⟨ps, c', hplans⟩ := planItems_of_usable (fun v hv hi c hc => ih v hv hi hc) hc
    refine ⟨.list ps, c', ?_⟩
    rw [plan, hplans]

/-- Which uses have a plan does not depend on what has been compiled before. -/
theorem planUse_isOk (hc : c.Sound) (space : Markup.Namespace) (template : Template)
    (values : List Value) :
    (∃ use, (c.planUse space template values).1 = .ok use) ↔
      (Value.invocation space template values).Usable := by
  refine ⟨fun ⟨use, h⟩ => ?_, fun h => ?_⟩
  · have hextends := extends_planUse c space template values
    generalize hplan : c.planUse space template values = result at h hextends
    obtain ⟨outcome, c'⟩ := result
    obtain rfl : outcome = .ok use := h
    exact (resolves_usable (hextends.sound hc)).1 (planUse_resolves hplan)
  · cases h with
    | leaf h => exact h.elim
    | invocation complete count usable =>
      obtain ⟨c₁, hprepare, hc₁⟩ := prepare_eq hc complete count
      obtain ⟨ps, c₂, hplans⟩ := planAll_of_usable (fun v hv c hc => plan_of_usable (usable v hv) hc) hc₁
      refine ⟨⟨space, template, (template.compilation space).compiled, ps⟩, ?_⟩
      rw [planUse, hprepare]
      dsimp only
      rw [hplans]

end Catalogue

end LiveMarkup
