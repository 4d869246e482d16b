import LiveMarkup.Proofs.Rendering.Display
import LiveMarkup.Proofs.Rendering.Planning
import LiveMarkup.Proofs.Rendering.Resolution
/-!
# Values of one shape

Two values have the same shape if they differ in primitives and nulls alone (`Value.SameShape`). How much
has changed from one to the other is how many of these are not the same (`Value.changes`). Values that are
the same have the same text, so what is shown of them is the same as well.
-/

namespace LiveMarkup

namespace Binary64

variable {x y z : Binary64}

theorem sameNumber_iff : x.sameNumber y = true ↔
    x.isUndefined = false ∧ y.isUndefined = false ∧ (x = y ∨ x.isZero = true ∧ y.isZero = true) := by
  simp [sameNumber, and_assoc]

theorem sameNumber_trans (h : x.sameNumber y = true) (h' : y.sameNumber z = true) :
    x.sameNumber z = true := by
  rw [sameNumber_iff] at h h' ⊢
  obtain ⟨hx, -, hxy⟩ := h
  obtain ⟨-, hz, hyz⟩ := h'
  refine ⟨hx, hz, ?_⟩
  rcases hxy with rfl | ⟨hx0, hy0⟩
  · exact hyz
  · rcases hyz with rfl | ⟨-, hz0⟩
    · exact .inr ⟨hx0, hy0⟩
    · exact .inr ⟨hx0, hz0⟩

/-- A zero is written without its sign. -/
theorem write_of_isZero (hx : x.isZero = true) : Layout.shown.write x = "0" := by
  have hfields : x.exponentField = 0 ∧ x.fractionField = 0 := by
    simpa [isZero] using hx
  have hundefined : x.isUndefined = false := by
    simp [isUndefined, hfields.1]
  have hfinite : x.isFinite = true := by
    simp [isFinite, hfields.1]
  rw [Layout.write, if_neg (by simp [hundefined]), hx, hfinite, Decimal.shortest, if_pos hx]
  cases x.isNegative <;> decide +kernel

theorem write_eq_of_sameNumber (h : x.sameNumber y = true) :
    Layout.shown.write x = Layout.shown.write y := by
  rcases (sameNumber_iff.1 h).2.2 with rfl | ⟨hx, hy⟩
  · rfl
  · rw [write_of_isZero hx, write_of_isZero hy]

end Binary64

namespace Value

variable {u v w : Value}

/-- Values that are the same have the same text. -/
theorem text?_eq_of_isSame (h : v.isSame w = true) : v.text? = w.text? := by
  cases v <;> cases w <;> simp only [isSame, beq_iff_eq, Bool.false_eq_true] at h <;> try rfl
  case bool.bool => rw [h]
  case number.number => rw [text?, text?, Binary64.write_eq_of_sameNumber h]
  case string.string => rw [h]

theorem written_eq_of_isSame (h : v.isSame w = true) : v.written = w.written := by
  rw [written, written, text?_eq_of_isSame h]

theorem isNull_eq_of_isSame (h : v.isSame w = true) : v.isNull = w.isNull := by
  cases v <;> cases w <;> first | rfl | cases h

theorem isSame_trans (h : u.isSame v = true) (h' : v.isSame w = true) : u.isSame w = true := by
  cases u <;> cases v <;> simp only [isSame, beq_iff_eq, Bool.false_eq_true] at h <;> cases w <;>
    simp only [isSame, beq_iff_eq, Bool.false_eq_true] at h' ⊢
  case number.number.number => exact Binary64.sameNumber_trans h h'
  all_goals exact h.trans h'

theorem isSame_string (s : String) : (string s).isSame (string s) = true := by
  simp [isSame]

namespace Passes

theorem isSame (h : u.Passes v) (h' : v.isSame w = true) : u.isSame w = true := by
  rcases h with rfl | h
  · exact h'
  · exact isSame_trans h h'

theorem written (h : u.Passes v) : u.written = v.written := by
  rcases h with rfl | h
  · rfl
  · exact written_eq_of_isSame h

theorem isNull (h : u.Passes v) : u.isNull = v.isNull := by
  rcases h with rfl | h
  · rfl
  · exact isNull_eq_of_isSame h

end Passes

/-! ### Shapes -/

mutual

/-- Two values differ in primitives and nulls alone. -/
def SameShape : Value → Value → Prop
  | .invocation space template vs, .invocation space' template' ws =>
    space = space' ∧ template = template' ∧ SameShapes vs ws
  | .list vs, .list ws => SameShapes vs ws
  | v, w => v.IsPlain ∧ w.IsPlain

/-- Some values differ from others in primitives and nulls alone. -/
def SameShapes : List Value → List Value → Prop
  | [], [] => True
  | v :: vs, w :: ws => v.SameShape w ∧ SameShapes vs ws
  | _, _ => False

end

mutual

/-- How many primitives and nulls in a value are not the same as those in another one of the same
shape. -/
def changes : Value → Value → Nat
  | .invocation _ _ vs, .invocation _ _ ws => changesAll vs ws
  | .list vs, .list ws => changesAll vs ws
  | v, w => if v.isSame w then 0 else 1

/-- How many primitives and nulls in some values are not the same as those in others. -/
def changesAll : List Value → List Value → Nat
  | v :: vs, w :: ws => v.changes w + changesAll vs ws
  | _, _ => 0

end

theorem changes_of_isPlain (hv : v.IsPlain) : v.changes w = if v.isSame w then 0 else 1 := by
  rw [changes]
  · exact fun _ _ _ _ _ _ h => absurd h (hv.ne_invocation _ _ _)
  · exact fun _ _ h => absurd h (hv.ne_list _)

end Value

namespace Plan

mutual

/-- Two plans differ in values alone. -/
def Like : Plan → Plan → Prop
  | .leaf _, .leaf _ => True
  | .use space template compiled ps, .use space' template' compiled' ps' =>
    space = space' ∧ template = template' ∧ compiled = compiled' ∧ LikeAll ps ps'
  | .list ps, .list ps' => LikeAll ps ps'
  | _, _ => False

/-- Some plans differ from others in values alone. -/
def LikeAll : List Plan → List Plan → Prop
  | [], [] => True
  | p :: ps, p' :: ps' => p.Like p' ∧ LikeAll ps ps'
  | _, _ => False

end

mutual

/-- How many values in a plan are not the same as those in another one. -/
def changes : Plan → Plan → Nat
  | .leaf v, .leaf w => if v.isSame w then 0 else 1
  | .use _ _ _ ps, .use _ _ _ ps' => changesAll ps ps'
  | .list ps, .list ps' => changesAll ps ps'
  | _, _ => 0

/-- How many values in some plans are not the same as those in others. -/
def changesAll : List Plan → List Plan → Nat
  | p :: ps, p' :: ps' => p.changes p' + changesAll ps ps'
  | _, _ => 0

end

/-- Whether a plan is shown by the binding of its hole. -/
def isFlat : Plan → Bool
  | .leaf _ => true
  | .list (.leaf _ :: _) => true
  | _ => false

/-- How much the binding of a hole has to change. -/
def outer (p p' : Plan) : Nat :=
  if p.isFlat then p.changes p' else 0

/-- How much has to be changed in what is nested in a hole. -/
def inner (p p' : Plan) : Nat :=
  if p.isFlat then 0 else p.changes p'

theorem inner_add_outer (p p' : Plan) : p.inner p' + p.outer p' = p.changes p' := by
  rw [inner, outer]
  split
  · exact Nat.zero_add _
  · exact Nat.add_zero _

/-- How much the bindings of some holes have to change. -/
def outerAll : List Plan → List Plan → Nat
  | p :: ps, p' :: ps' => p.outer p' + outerAll ps ps'
  | _, _ => 0

/-- How much has to be changed in what is nested in some holes. -/
def innerAll : List Plan → List Plan → Nat
  | p :: ps, p' :: ps' => p.inner p' + innerAll ps ps'
  | _, _ => 0

theorem innerAll_add_outerAll (ps ps' : List Plan) :
    innerAll ps ps' + outerAll ps ps' = changesAll ps ps' := by
  induction ps generalizing ps' with
  | nil => simp [innerAll, outerAll, changesAll]
  | cons p ps ih =>
    cases ps' with
    | nil => simp [innerAll, outerAll, changesAll]
    | cons p' ps' =>
      rw [innerAll, outerAll, changesAll, ← ih, ← inner_add_outer]
      omega

variable {p p' : Plan} {ps ps' : List Plan} {v w : Value} {vs ws : List Value}

theorem eq_leaf_of_like (h : (leaf v).Like p') : ∃ w, p' = leaf w := by
  cases p' with
  | leaf w => exact ⟨w, rfl⟩
  | use | list => exact False.elim h

/-- Plans that are values are like others that are values. -/
theorem exists_leaves (h : LikeAll (vs.map leaf) ps') : ∃ ws : List Value, ps' = ws.map leaf := by
  induction vs generalizing ps' with
  | nil =>
    cases ps' with
    | nil => exact ⟨[], rfl⟩
    | cons => exact False.elim h
  | cons v vs ih =>
    cases ps' with
    | nil => exact False.elim h
    | cons p' ps' =>
      obtain ⟨w, rfl⟩ := eq_leaf_of_like h.1
      obtain ⟨ws, rfl⟩ := ih h.2
      exact ⟨w :: ws, rfl⟩

theorem written_eq_of_changesAll (hlength : vs.length = ws.length)
    (h : changesAll (vs.map leaf) (ws.map leaf) = 0) : vs.map Value.written = ws.map Value.written := by
  induction vs generalizing ws with
  | nil =>
    cases ws with
    | nil => rfl
    | cons => cases hlength
  | cons v vs ih =>
    cases ws with
    | nil => cases hlength
    | cons w ws =>
      rw [List.map_cons, List.map_cons, changesAll, changes, Nat.add_eq_zero_iff] at h
      have hsame : v.isSame w = true := by
        by_contra hne
        rw [if_neg hne] at h
        exact absurd h.1 (by decide)
      rw [List.map_cons, List.map_cons, Value.written_eq_of_isSame hsame, ih (Nat.succ.inj hlength) h.2]

theorem length_eq_of_likeAll (h : LikeAll ps ps') : ps.length = ps'.length := by
  induction ps generalizing ps' with
  | nil =>
    cases ps' with
    | nil => rfl
    | cons => exact False.elim h
  | cons p ps ih =>
    cases ps' with
    | nil => exact False.elim h
    | cons p' ps' => rw [List.length_cons, List.length_cons, ih h.2]

/-- A plan that the binding of its hole does not show is no primitive. -/
theorem primitive?_eq_none_of_isFlat (hp : p.isFlat = false) : p.primitive? = none := by
  cases p with
  | leaf v => cases hp
  | use => rfl
  | list ps =>
    cases ps with
    | nil => rfl
    | cons p ps =>
      cases p with
      | leaf v => cases hp
      | use | list => rfl

theorem isFlat_of_primitive? (hv : p.primitive? = some v) : p.isFlat = true := by
  by_contra hflat
  rw [Bool.not_eq_true] at hflat
  rw [primitive?_eq_none_of_isFlat hflat] at hv
  cases hv

theorem eq_leaf_of_isFlat (hp : p.isFlat = true) (hnone : p.primitive? = none) : ∃ v, p = leaf v := by
  cases p with
  | leaf v => exact ⟨v, rfl⟩
  | use => cases hp
  | list ps =>
    cases ps with
    | nil => cases hp
    | cons p ps =>
      cases p with
      | leaf v => cases hnone
      | use | list => cases hp

theorem isFlat_eq_of_like (h : p.Like p') : p.isFlat = p'.isFlat := by
  cases p with
  | leaf v =>
    obtain ⟨w, rfl⟩ := eq_leaf_of_like h
    rfl
  | use =>
    cases p' with
    | use => rfl
    | leaf | list => exact False.elim h
  | list ps =>
    cases p' with
    | leaf | use => exact False.elim h
    | list ps' =>
      cases ps with
      | nil =>
        cases ps' with
        | nil => rfl
        | cons => exact False.elim h
      | cons p ps =>
        cases ps' with
        | nil => exact False.elim h
        | cons p' ps' =>
          have hp : p.Like p' := h.1
          cases p <;> cases p' <;> first | rfl | exact False.elim hp

/-- Unless anything has changed, what is shown as a primitive stays the same. -/
theorem isSame_of_changes (h : p.Like p') (hv : p.primitive? = some v) (hw : p'.primitive? = some w)
    (hfits : p.Fits) (hchanges : p.changes p' = 0) : v.isSame w = true := by
  cases hfits with
  | leaf =>
    obtain ⟨w', rfl⟩ := eq_leaf_of_like h
    rw [primitive?] at hv hw
    split at hv
    · cases hv
    · split at hw
      · cases hw
      · cases hv
        cases hw
        by_contra hne
        rw [changes, if_neg hne] at hchanges
        cases hchanges
  | use => cases hv
  | list _ huses =>
    rename_i items _
    cases items with
    | nil => cases hv
    | cons p ps =>
      obtain ⟨space, template, compiled, holes, rfl⟩ := huses p (List.mem_cons_self ..)
      cases hv
  | @texts v' rest =>
    cases p' with
    | leaf | use => exact False.elim h
    | list ps' =>
      have hlike : LikeAll ((v' :: rest).map leaf) ps' := h
      obtain ⟨ws, rfl⟩ := exists_leaves hlike
      have hlength := length_eq_of_likeAll hlike
      rw [List.length_map, List.length_map] at hlength
      rw [changes] at hchanges
      have hwritten := written_eq_of_changesAll hlength hchanges
      cases ws with
      | nil => cases hlength
      | cons w' ws =>
        have hjoin : ∀ vs : List Value, ((vs.map leaf).map fun p => p.value.written)
            = vs.map Value.written := fun vs => by
          rw [List.map_map]
          rfl
        rw [List.map_cons, primitive?, ← List.map_cons, hjoin] at hv hw
        cases hv
        cases hw
        rw [hwritten]
        exact Value.isSame_string _

/-- What becomes a primitive, or is one no longer, has changed. -/
theorem changes_pos (h : p.Like p') (hfits : p.Fits) (hfits' : p'.Fits)
    (hne : p.primitive?.isSome ≠ p'.primitive?.isSome) : 1 ≤ p.outer p' := by
  have hflat : p.isFlat = true := by
    by_contra hflat
    rw [Bool.not_eq_true] at hflat
    rw [primitive?_eq_none_of_isFlat hflat,
      primitive?_eq_none_of_isFlat ((isFlat_eq_of_like h).symm.trans hflat)] at hne
    exact hne rfl
  rw [outer, if_pos hflat]
  cases hfits with
  | @leaf v hv =>
    obtain ⟨w, rfl⟩ := eq_leaf_of_like h
    have hsame : ¬ v.isSame w = true := by
      intro hsame
      have hnull := Value.isNull_eq_of_isSame hsame
      rw [primitive?, primitive?, hnull] at hne
      split at hne <;> exact hne rfl
    exact Nat.le_of_eq (if_neg hsame).symm
  | use => cases hflat
  | list _ huses =>
    rename_i items _
    cases items with
    | nil => cases hflat
    | cons p ps =>
      obtain ⟨space, template, compiled, holes, rfl⟩ := huses p (List.mem_cons_self ..)
      cases hflat
  | @texts v rest =>
    cases p' with
    | leaf | use => exact False.elim h
    | list ps' =>
      obtain ⟨ws, rfl⟩ := exists_leaves (show LikeAll ((v :: rest).map leaf) ps' from h)
      cases ws with
      | nil => exact False.elim h
      | cons w ws => exact absurd rfl hne

end Plan

/-! ### Shapes of values and of their plans -/

namespace Value

/-- The plans for values of the same shape differ in values alone, and as much as these do. -/
theorem like_toPlan :
    (∀ v w : Value, v.SameShape w → v.toPlan.Like w.toPlan ∧ v.toPlan.changes w.toPlan = v.changes w) ∧
      ∀ vs ws : List Value, SameShapes vs ws → Plan.LikeAll (toPlans vs) (toPlans ws) ∧
        Plan.changesAll (toPlans vs) (toPlans ws) = changesAll vs ws := by
  refine Value.induct ?_ ?_ ?_ ?_ ?_
  · intro v hv w h
    rw [SameShape] at h
    · rw [toPlan_of_isPlain h.1, toPlan_of_isPlain h.2, Plan.changes, changes_of_isPlain h.1]
      exact ⟨trivial, rfl⟩
    · exact fun _ _ _ _ _ _ he => absurd he (hv.ne_invocation _ _ _)
    · exact fun _ _ he => absurd he (hv.ne_list _)
  · intro space template vs ih w h
    cases w with
    | invocation space' template' ws =>
      obtain ⟨rfl, rfl, h⟩ := h
      obtain ⟨hlike, hchanges⟩ := ih ws h
      rw [toPlan, toPlan, Plan.changes, changes, hchanges]
      exact ⟨⟨rfl, rfl, rfl, hlike⟩, rfl⟩
    | _ => exact absurd h.1 (fun hp => hp.ne_invocation _ _ _ rfl)
  · intro vs ih w h
    cases w with
    | list ws =>
      obtain ⟨hlike, hchanges⟩ := ih ws h
      rw [toPlan, toPlan, Plan.changes, changes, hchanges]
      exact ⟨hlike, rfl⟩
    | _ => exact absurd h.1 (fun hp => hp.ne_list _ rfl)
  · intro ws h
    cases ws with
    | nil => exact ⟨trivial, rfl⟩
    | cons => exact False.elim h
  · intro v vs ihv ihvs ws h
    cases ws with
    | nil => exact False.elim h
    | cons w ws =>
      obtain ⟨hlike, hchanges⟩ := ihv w h.1
      obtain ⟨hlikes, hchangesAll⟩ := ihvs ws h.2
      rw [toPlans, toPlans, Plan.changesAll, changesAll, hchanges, hchangesAll]
      exact ⟨⟨hlike, hlikes⟩, rfl⟩

end Value

/-! ### Planning a value of a known shape -/

namespace Value

variable {v w : Value} {vs ws : List Value}

theorem length_eq_of_sameShapes (h : SameShapes vs ws) : vs.length = ws.length := by
  induction vs generalizing ws with
  | nil =>
    cases ws with
    | nil => rfl
    | cons => exact False.elim h
  | cons v vs ih =>
    cases ws with
    | nil => exact False.elim h
    | cons w ws => rw [List.length_cons, List.length_cons, ih h.2]

theorem isPlain_of_sameShape (hv : v.IsLeaf) (h : v.SameShape w) : w.IsPlain := by
  rw [SameShape] at h
  · exact h.2
  · exact fun _ _ _ _ _ _ he => absurd he (hv.ne_invocation _ _ _)
  · exact fun _ _ he => absurd he (hv.ne_list _)

theorem isInvocation_of_sameShape (h : v.SameShape w) (hw : w.IsInvocation) : v.IsInvocation := by
  obtain ⟨space, template, ws, rfl⟩ := hw
  cases v with
  | invocation space template vs => exact ⟨space, template, vs, rfl⟩
  | _ => exact absurd rfl (h.2.ne_invocation _ _ _)

theorem SameShape.isInvocation (h : v.SameShape w) (hv : v.IsInvocation) : w.IsInvocation := by
  obtain ⟨space, template, vs, rfl⟩ := hv
  cases w with
  | invocation space template ws => exact ⟨space, template, ws, rfl⟩
  | _ => exact absurd rfl (h.1.ne_invocation _ _ _)

end Value

namespace Catalogue

variable {c : Catalogue} {space : Markup.Namespace} {template : Template}

/-- Using a template that has been compiled needs no compiling. -/
theorem prepare_of_known {compiled : Compiled} {n : Nat}
    (hknown : c.entries.lookup (space, template) = some compiled) (hn : compiled.holes.length = n) :
    c.prepare space template n = (.ok compiled, c) := by
  rw [prepare, compile, hknown]
  exact if_pos hn

/-- Where a value has been planned, another one of the same shape is planned without compiling. -/
theorem plan_of_resolves :
    (∀ {v p}, c.Resolves v p → ∀ w, v.SameShape w → ∃ q, c.plan w = (.ok q, c)) ∧
      (∀ {vs ps}, c.ResolvesAll vs ps → ∀ ws, Value.SameShapes vs ws →
        ∃ qs, c.planAll ws = (.ok qs, c)) ∧
      ∀ {vs ps}, c.ResolvesItems vs ps → ∀ ws, Value.SameShapes vs ws →
        ∃ qs, c.planItems ws = (.ok qs, c) := by
  refine resolves_induct ?_ ?_ ?_ ?_ ?_ ?_ ?_ ?_
  · intro v hv w h
    exact ⟨_, plan_of_isPlain (Value.isPlain_of_sameShape hv h)⟩
  · intro space template compiled values plans hknown hcount ih w h
    cases w with
    | invocation space' template' ws =>
      obtain ⟨rfl, rfl, h⟩ := h
      obtain ⟨qs, hplans⟩ := ih ws h
      refine ⟨.use space template compiled qs, ?_⟩
      rw [plan, prepare_of_known hknown (hcount.trans (Value.length_eq_of_sameShapes h))]
      dsimp only
      rw [hplans]
    | _ => exact absurd rfl (h.1.ne_invocation _ _ _)
  · intro values plans ih w h
    cases w with
    | list ws =>
      obtain ⟨qs, hplans⟩ := ih ws h
      refine ⟨.list qs, ?_⟩
      rw [plan, hplans]
    | _ => exact absurd rfl (h.1.ne_list _)
  · intro ws h
    cases ws with
    | nil => exact ⟨[], rfl⟩
    | cons => exact False.elim h
  · intro v vs p ps ih ihs ws h
    cases ws with
    | nil => exact False.elim h
    | cons w ws =>
      obtain ⟨q, hplan⟩ := ih w h.1
      obtain ⟨qs, hplans⟩ := ihs ws h.2
      refine ⟨q :: qs, ?_⟩
      rw [planAll, hplan]
      dsimp only
      rw [hplans]
  · intro ws h
    cases ws with
    | nil => exact ⟨[], rfl⟩
    | cons => exact False.elim h
  · intro v vs ps hv ihs ws h
    cases ws with
    | nil => exact False.elim h
    | cons w ws =>
      obtain ⟨qs, hplans⟩ := ihs ws h.2
      refine ⟨.leaf w :: qs, ?_⟩
      rw [planItems_cons_of_not_isInvocation fun hw => hv (Value.isInvocation_of_sameShape h.1 hw), hplans]
  · intro space template compiled values plans vs ps ih ihs ws h
    cases ws with
    | nil => exact False.elim h
    | cons w ws =>
      obtain ⟨q, hplan⟩ := ih w h.1
      obtain ⟨qs, hplans⟩ := ihs ws h.2
      have hw : w.IsInvocation := by
        cases w with
        | invocation space template values => exact ⟨space, template, values, rfl⟩
        | _ => exact absurd rfl (h.1.1.ne_invocation _ _ _)
      obtain ⟨space', template', values', rfl⟩ := hw
      refine ⟨q :: qs, ?_⟩
      rw [planItems, hplan]
      dsimp only
      rw [hplans]

/-- Where an invocation has been planned, another one of the same shape is planned without compiling. -/
theorem planUse_of_resolves {vs ws : List Value} {p : Plan} (hc : c.Sound)
    (hknown : c.Resolves (.invocation space template vs) p)
    (hshape : (Value.invocation space template vs).SameShape (.invocation space template ws))
    (hfits : (Value.invocation space template ws).Fits) :
    c.planUse space template ws
      = (.ok ⟨space, template, (template.compilation space).compiled, Value.toPlans ws⟩, c) := by
  obtain ⟨c', hplan, -⟩ := planUse_eq hfits hc
  rw [hplan]
  refine congrArg (_, ·) ?_
  cases hknown with
  | leaf hv => exact False.elim hv
  | use hlookup hcount hholes =>
    obtain ⟨qs, hplans⟩ := plan_of_resolves.2.1 hholes ws hshape.2.2
    rw [planUse, prepare_of_known hlookup (hcount.trans (Value.length_eq_of_sameShapes hshape.2.2))]
      at hplan
    dsimp only at hplan
    rw [hplans] at hplan
    cases hplan
    rfl

end Catalogue

end LiveMarkup
