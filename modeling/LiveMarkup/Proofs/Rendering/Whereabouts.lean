import LiveMarkup.Proofs.Rendering.Answering
import LiveMarkup.Proofs.Rendering.Seating
/-!
# What stands on a level

The instances of a plan stand in a row on a level, and so do its slots (`Stands`). What is nested in the holes of an
instance stands behind it, hole by hole (`Stands.holes`, `StandsAll.head`, `StandsAll.tail`). No two things that stand
on a level are in the same place, and so what is at the top of the next plan is not found again unless it is at the
same position as before (`Stands.unmet_or`).
-/

namespace LiveMarkup

open Exhibit

/-! ### Places on a level -/

/-- The position of the instance that a place is in a hole of. -/
def Place.owner? : Place → Option Nat
  | .hole owner _ _ => some owner
  | _ => none

/-- A place is in no hole of the instances at some positions. -/
def Place.Apart (position count : Nat) (place : Place) : Prop :=
  ∀ owner, place.owner? = some owner → owner < position ∨ position + count ≤ owner

/-- The places of some instances and lists. -/
def placesOf (posts : List (Form × Place)) (rolls : List Roll) : List Place :=
  posts.map Prod.snd ++ rolls.filterMap Roll.list?

section PlacesOf

variable {posts posts' : List (Form × Place)} {rolls rolls' : List Roll} {place ρ : Place}

theorem mem_placesOf_append : ρ ∈ placesOf (posts ++ posts') (rolls ++ rolls') ↔
    ρ ∈ placesOf posts rolls ∨ ρ ∈ placesOf posts' rolls' := by
  simp only [placesOf, List.map_append, List.filterMap_append, List.mem_append]
  tauto

theorem mem_placesOf_of_post {post : Form × Place} (h : post ∈ posts) : post.2 ∈ placesOf posts rolls :=
  List.mem_append_left _ (List.mem_map_of_mem h)

theorem mem_placesOf_of_place? {r : Roll} {number : Nat} (h : r ∈ rolls) (hr : r.place? = some (.item place number)) :
    place ∈ placesOf posts rolls :=
  List.mem_append_right _ (List.mem_filterMap.2 ⟨r, h, list?_of_place? hr⟩)

/-- The place of what is nested in an instance is in a hole of one of the instances of the plan. -/
theorem placesOf_plan :
    (∀ (p : Plan) (place : Place) (position : Nat), ∀ ρ ∈ placesOf (p.posts place position) (p.rolls place position),
      ρ = place ∨ ∃ owner, ρ.owner? = some owner ∧ position ≤ owner ∧ owner < position + p.forms.length) ∧
    ∀ ps : List Plan, (∀ (owner : Nat) (form : Form) (number position : Nat),
      ∀ ρ ∈ placesOf (postsAll owner form number position ps) (rollsAll owner form number position ps),
        (∃ k, number ≤ k ∧ ρ = .hole owner form k) ∨
          ∃ owner', ρ.owner? = some owner' ∧ position ≤ owner' ∧ owner' < position + (formsAll ps).length) ∧
      ∀ (place : Place) (number : Nat), ∀ ρ ∈ placesOf [] (rollsOfItems place number ps), ρ = place := by
  refine Plan.induct ?_ ?_ ?_ ?_ ?_
  · intro v place position ρ hρ
    cases hρ
  · intro space template compiled holes ih place position ρ hρ
    rw [Plan.posts, Plan.rolls, ← List.singleton_append, ← List.nil_append (rollsAll ..), mem_placesOf_append] at hρ
    rw [Plan.forms, List.length_cons]
    rcases hρ with hρ | hρ
    · exact .inl (List.mem_singleton.1 hρ)
    · rcases ih.1 _ _ _ _ ρ hρ with ⟨k, -, rfl⟩ | ⟨owner, howner, hle, hlt⟩
      · exact .inr ⟨position, rfl, Nat.le_refl _, by omega⟩
      · exact .inr ⟨owner, howner, by omega, by omega⟩
  · intro items ih place position ρ hρ
    exact .inl (ih.2 place 0 ρ hρ)
  · exact ⟨fun _ _ _ _ ρ hρ => (by cases hρ), fun _ _ ρ hρ => by cases hρ⟩
  · intro p ps ihp ihps
    refine ⟨fun owner form number position ρ hρ => ?_, fun place number ρ hρ => ?_⟩
    · rw [postsAll, rollsAll, mem_placesOf_append] at hρ
      rw [formsAll, List.length_append]
      rcases hρ with hρ | hρ
      · rcases ihp _ _ ρ hρ with rfl | ⟨owner', howner, hle, hlt⟩
        · exact .inl ⟨number, Nat.le_refl _, rfl⟩
        · exact .inr ⟨owner', howner, hle, by omega⟩
      · rcases ihps.1 _ _ _ _ ρ hρ with ⟨k, hk, rfl⟩ | ⟨owner', howner, hle, hlt⟩
        · exact .inl ⟨k, by omega, rfl⟩
        · exact .inr ⟨owner', howner, by omega, by omega⟩
    · have hitem : ∀ {rolls : List Roll}, ρ ∈ placesOf []
          (⟨p.posts (.item place number) 0, p.rolls (.item place number) 0⟩ :: rolls) →
          ρ = place ∨ ρ ∈ placesOf [] rolls := by
        intro rolls hρ
        rw [← List.singleton_append, ← List.nil_append ([] : List (Form × Place)), mem_placesOf_append] at hρ
        refine hρ.imp_left fun hρ => ?_
        obtain ⟨r, hr, he⟩ := List.mem_filterMap.1 hρ
        obtain rfl := List.mem_singleton.1 hr
        obtain ⟨number, h⟩ := list?_posts p _ _ _ he
        cases h
        rfl
      cases p with
      | leaf => exact ihps.2 _ _ ρ hρ
      | use | list => exact (hitem hρ).elim id (ihps.2 _ _ ρ)

end PlacesOf

/-! ### What stands on a level -/

/-- What is shown of a plan stands on a level: its instances begin at some position and its slots at some slot, and
nothing else on the level is in its place or in a hole of one of its instances. -/
structure Stands (is : List Instance) (cs : List Cache) (posts : List (Form × Place)) (rolls : List Roll) (q : Plan)
    (y : Exhibit) (place : Place) (position slot : Nat) : Prop where
  instances : y.instances <+: is.drop position
  slots : y.slots <+: cs.drop slot
  outer : ∃ before behind before' behind', posts = before ++ q.posts place position ++ behind ∧
    before.length = position ∧ rolls = before' ++ q.rolls place position ++ behind' ∧ before'.length = slot ∧
    ∀ ρ ∈ placesOf (before ++ behind) (before' ++ behind'), ρ ≠ place ∧ ρ.Apart position q.forms.length
  owner : place.Apart position q.forms.length

/-- What is shown of plans for the holes of an instance stands on a level. -/
structure StandsAll (is : List Instance) (cs : List Cache) (posts : List (Form × Place)) (rolls : List Roll)
    (qs : List Plan) (ys : List Exhibit) (owner : Nat) (form : Form) (number position slot : Nat) : Prop where
  instances : instancesAll ys <+: is.drop position
  slots : slotsAll ys <+: cs.drop slot
  outer : ∃ before behind before' behind', posts = before ++ postsAll owner form number position qs ++ behind ∧
    before.length = position ∧ rolls = before' ++ rollsAll owner form number position qs ++ behind' ∧
    before'.length = slot ∧ ∀ ρ ∈ placesOf (before ++ behind) (before' ++ behind'),
      (∀ k, number ≤ k → ρ ≠ .hole owner form k) ∧ ρ.Apart position (formsAll qs).length
  owner : owner < position

section Stands

variable {is : List Instance} {cs : List Cache} {posts : List (Form × Place)} {rolls : List Roll} {q : Plan}
  {y : Exhibit} {qs : List Plan} {ys : List Exhibit} {place : Place} {owner number position slot : Nat} {form : Form}

/-- A plan stands on a level that has nothing else. -/
theorem stands_self (hplace : place.owner? = none) :
    Stands y.instances y.slots (q.posts place 0) (q.rolls place 0) q y place 0 0 where
  instances := List.prefix_refl _
  slots := List.prefix_refl _
  outer := ⟨[], [], [], [], by simp, rfl, by simp, rfl, fun ρ hρ => by cases hρ⟩
  owner := fun owner h => by
    rw [hplace] at h
    cases h

theorem Place.Apart.succ {ρ : Place} {count : Nat} (h : ρ.Apart position (count + 1)) :
    (∀ form k, ρ ≠ .hole position form k) ∧ ρ.Apart (position + 1) count := by
  refine ⟨fun form k he => ?_, fun owner howner => ?_⟩
  · subst he
    have := h position rfl
    omega
  · have := h owner howner
    omega

/-- What is shown in the holes of an instance stands behind it. -/
theorem Stands.holes {i : Instance} {roots : List Plant} {es : List (Binding × Spot)} {space : Markup.Namespace}
    {template : Template} {compiled : Compiled}
    (h : Stands is cs posts rolls (.use space template compiled qs) (seated i roots es ys) place position slot) :
    StandsAll is cs posts rolls qs ys position (space, template) 0 (position + 1) slot where
  instances := by
    obtain ⟨rest, hrest⟩ := h.instances
    refine ⟨rest, ?_⟩
    rw [← List.drop_drop, ← hrest]
    rfl
  slots := h.slots
  outer := by
    obtain ⟨before, behind, before', behind', hposts, hlength, hrolls, hlength', hout⟩ := h.outer
    have howner := h.owner
    rw [Plan.posts] at hposts
    rw [Plan.forms, List.length_cons] at hout howner
    refine ⟨before ++ [((space, template), place)], behind, before', behind', by rw [hposts]; simp,
      by rw [List.length_append, hlength]; rfl, hrolls, hlength', fun ρ hρ => ?_⟩
    have hρ' : ρ.Apart position ((formsAll qs).length + 1) := by
      rw [mem_placesOf_append, ← List.append_nil before', mem_placesOf_append] at hρ
      rcases hρ with (hρ | hρ) | hρ
      · exact (hout ρ (mem_placesOf_append.2 (.inl hρ))).2
      · obtain rfl := List.mem_singleton.1 hρ
        exact howner
      · exact (hout ρ (mem_placesOf_append.2 (.inr hρ))).2
    exact ⟨fun k _ => hρ'.succ.1 _ k, hρ'.succ.2⟩
  owner := Nat.lt_succ_self _

theorem StandsAll.head (h : StandsAll is cs posts rolls (q :: qs) (y :: ys) owner form number position slot) :
    Stands is cs posts rolls q y (.hole owner form number) position slot where
  instances := (List.prefix_append ..).trans h.instances
  slots := (List.prefix_append ..).trans h.slots
  outer := by
    obtain ⟨before, behind, before', behind', hposts, hlength, hrolls, hlength', hout⟩ := h.outer
    have howner := h.owner
    rw [postsAll] at hposts
    rw [rollsAll] at hrolls
    rw [formsAll, List.length_append] at hout
    refine ⟨before, postsAll owner form (number + 1) (position + q.forms.length) qs ++ behind, before',
      rollsAll owner form (number + 1) (position + q.forms.length) qs ++ behind', by rw [hposts]; simp, hlength,
      by rw [hrolls]; simp, hlength', fun ρ hρ => ?_⟩
    rw [mem_placesOf_append, mem_placesOf_append] at hρ
    have houter : ρ ∈ placesOf (before ++ behind) (before' ++ behind') → ρ ≠ .hole owner form number ∧
        ρ.Apart position q.forms.length := fun hρ => ⟨(hout ρ hρ).1 number (Nat.le_refl _), fun o ho => by
      have := (hout ρ hρ).2 o ho
      omega⟩
    rcases hρ with hρ | hρ | hρ
    · exact houter (mem_placesOf_append.2 (.inl hρ))
    · rcases (placesOf_plan.2 qs).1 _ _ _ _ ρ hρ with ⟨k, hk, rfl⟩ | ⟨owner', howner', hle, hlt⟩
      · refine ⟨fun he => ?_, fun o ho => ?_⟩
        · cases he
          omega
        · cases ho
          exact .inl howner
      · refine ⟨fun he => ?_, fun o ho => ?_⟩
        · subst he
          cases howner'
          omega
        · rw [howner'] at ho
          cases ho
          exact .inr hle
    · exact houter (mem_placesOf_append.2 (.inr hρ))
  owner := fun o ho => by
    cases ho
    exact .inl h.owner

theorem StandsAll.tail (h : StandsAll is cs posts rolls (q :: qs) (y :: ys) owner form number position slot)
    (hy : y.Shows q) :
    StandsAll is cs posts rolls qs ys owner form (number + 1) (position + q.forms.length)
      (slot + q.decks.length) where
  instances := by
    obtain ⟨rest, hrest⟩ := h.instances
    refine ⟨rest, ?_⟩
    have hlength : y.instances.length = q.forms.length := by
      rw [← uses_of_shows.1 q y hy, List.length_map]
    rw [← List.drop_drop, ← hrest, instancesAll, List.append_assoc, ← hlength, List.drop_left]
  slots := by
    obtain ⟨rest, hrest⟩ := h.slots
    refine ⟨rest, ?_⟩
    have hlength : y.slots.length = q.decks.length := by
      rw [length_of_slotsAnswer (answers_of_shows hy none).2.2, length_rolls.1]
    rw [← List.drop_drop, ← hrest, slotsAll, List.append_assoc, ← hlength, List.drop_left]
  outer := by
    obtain ⟨before, behind, before', behind', hposts, hlength, hrolls, hlength', hout⟩ := h.outer
    have howner := h.owner
    rw [postsAll] at hposts
    rw [rollsAll] at hrolls
    rw [formsAll, List.length_append] at hout
    refine ⟨before ++ q.posts (.hole owner form number) position, behind,
      before' ++ q.rolls (.hole owner form number) position, behind', by rw [hposts]; simp,
      by rw [List.length_append, hlength, length_posts], by rw [hrolls]; simp,
      by rw [List.length_append, hlength', length_rolls.1], fun ρ hρ => ?_⟩
    rw [mem_placesOf_append, mem_placesOf_append] at hρ
    have houter : ρ ∈ placesOf (before ++ behind) (before' ++ behind') →
        (∀ k, number + 1 ≤ k → ρ ≠ .hole owner form k) ∧ ρ.Apart (position + q.forms.length) (formsAll qs).length :=
      fun hρ => ⟨fun k hk => (hout ρ hρ).1 k (by omega), fun o ho => by
        have := (hout ρ hρ).2 o ho
        omega⟩
    rcases hρ with (hρ | hρ) | hρ
    · exact houter (mem_placesOf_append.2 (.inl hρ))
    · rcases placesOf_plan.1 q _ _ ρ hρ with rfl | ⟨owner', howner', hle, hlt⟩
      · refine ⟨fun k hk he => ?_, fun o ho => ?_⟩
        · cases he
          omega
        · cases ho
          omega
      · refine ⟨fun k hk he => ?_, fun o ho => ?_⟩
        · subst he
          cases howner'
          omega
        · rw [howner'] at ho
          cases ho
          exact .inl hlt
    · exact houter (mem_placesOf_append.2 (.inr hρ))
  owner := Nat.lt_of_lt_of_le h.owner (Nat.le_add_right ..)

/-- Nothing in the holes of an instance is in the place of the instance. -/
theorem Stands.ne_of_nested {space : Markup.Namespace} {template : Template} {compiled : Compiled}
    (h : Stands is cs posts rolls (.use space template compiled qs) y place position slot)
    (hplace : place ∈ placesOf (postsAll position (space, template) 0 (position + 1) qs)
      (rollsAll position (space, template) 0 (position + 1) qs)) : False := by
  have howner := h.owner
  rw [Plan.forms, List.length_cons] at howner
  rcases (placesOf_plan.2 qs).1 _ _ _ _ place hplace with ⟨k, -, he⟩ | ⟨owner, ho, hle, hlt⟩
  · exact howner.succ.1 _ _ he
  · have := howner owner ho
    omega

/-- Only the instance at the top of a plan is in the place of the plan. -/
theorem Stands.eq_of_post (h : Stands is cs posts rolls q y place position slot) {k : Nat} {post : Form × Place}
    (hpost : posts[k]? = some post) (hplace : post.2 = place) :
    k = position ∧ ∃ space template compiled holes, q = .use space template compiled holes ∧
      post.1 = (space, template) := by
  obtain ⟨before, behind, before', behind', hposts, hlength, -, -, hout⟩ := h.outer
  have hin : ∀ l, post ∈ l → l = before ∨ l = behind → False := fun l hmem hl =>
    (hout post.2 (mem_placesOf_of_post (List.mem_append.2 (by
      rcases hl with rfl | rfl
      · exact .inl hmem
      · exact .inr hmem)))).1 hplace
  rw [hposts, List.append_assoc, List.getElem?_append] at hpost
  split at hpost
  · exact (hin _ (List.mem_of_getElem? hpost) (.inl rfl)).elim
  · rw [List.getElem?_append] at hpost
    split at hpost
    · cases q with
      | leaf | list => cases hpost
      | use space template compiled holes =>
        rw [Plan.posts] at hpost
        cases hj : k - before.length with
        | zero =>
          rw [hj] at hpost
          obtain rfl := Option.some.inj hpost
          exact ⟨by omega, space, template, compiled, holes, rfl, rfl⟩
        | succ j =>
          rw [hj] at hpost
          exact (h.ne_of_nested (hplace ▸ mem_placesOf_of_post (List.mem_of_getElem? hpost))).elim
    · exact (hin _ (List.mem_of_getElem? hpost) (.inr rfl)).elim

theorem eq_of_place?_item {p : Plan} {rs : List Roll} {k : Nat}
    (h : Roll.place? ⟨p.posts (.item place number) 0, rs⟩ = some (.item place k)) : k = number := by
  cases p with
  | leaf | list => cases h
  | use =>
    cases h
    rfl

theorem eq_of_rollsOfItems {items : List Plan} {j k : Nat} {r : Roll}
    (hr : (rollsOfItems place number items)[j]? = some r)
    (hplace : r.place? = some (.item place k)) : k = number + j := by
  induction items generalizing number j with
  | nil => cases hr
  | cons p items ih =>
    have hcons : ∀ {r' : Roll}, (r' :: rollsOfItems place (number + 1) items)[j]? = some r →
        (r'.place? = some (.item place k) → k = number) → k = number + j := by
      intro r' hr hr'
      cases j with
      | zero =>
        obtain rfl := Option.some.inj hr
        exact hr' hplace
      | succ j =>
        have := ih hr
        omega
    cases p with
    | leaf => exact ih hr
    | use | list => exact hcons hr eq_of_place?_item

/-- Only the items of a plan for a list are in the list at its place. -/
theorem Stands.eq_of_roll (h : Stands is cs posts rolls q y place position slot) {k number : Nat} {r : Roll}
    (hr : rolls[k]? = some r) (hplace : r.place? = some (.item place number)) :
    ∃ items, q = .list items ∧ k = slot + number ∧ number < (decksOfItems items).length := by
  obtain ⟨before, behind, before', behind', -, -, hrolls, hlength, hout⟩ := h.outer
  have hin : ∀ l, r ∈ l → l = before' ∨ l = behind' → False := fun l hmem hl =>
    (hout place (mem_placesOf_of_place? (List.mem_append.2 (by
      rcases hl with rfl | rfl
      · exact .inl hmem
      · exact .inr hmem)) hplace)).1 rfl
  rw [hrolls, List.append_assoc, List.getElem?_append] at hr
  split at hr
  · exact (hin _ (List.mem_of_getElem? hr) (.inl rfl)).elim
  · rw [List.getElem?_append] at hr
    split at hr
    · cases q with
      | leaf => cases hr
      | use => exact (h.ne_of_nested (mem_placesOf_of_place? (List.mem_of_getElem? hr) hplace)).elim
      | list items =>
        have hk := eq_of_rollsOfItems hr hplace
        rename_i hlt
        rw [Plan.rolls, (length_rolls.2 items).2] at hlt
        exact ⟨items, rfl, by omega, by omega⟩
    · exact (hin _ (List.mem_of_getElem? hr) (.inr rfl)).elim

/-- What is at the top of the next plan in some place is not found again unless it is at the same position. -/
theorem Stands.unmet_or (h : Stands is cs posts rolls q y place position slot) {p : Plan}
    (position' slot' : Nat) (hposts : PostsAgree (posts.drop position') (p.posts place position')) :
    p.Unmet place position' slot' posts rolls ∨
      (∃ space template compiled compiled' qs ps, q = .use space template compiled qs ∧
        p = .use space template compiled' ps ∧ position' = position) ∨
      ∃ qs ps, q = .list qs ∧ p = .list ps ∧ slot' = slot ∧ decksOfItems qs ≠ [] := by
  refine or_iff_not_imp_left.2 fun hmet => ?_
  cases p with
  | leaf => exact absurd trivial hmet
  | use space template compiled' ps =>
    rw [Plan.Unmet] at hmet
    push Not at hmet
    obtain ⟨post, hpost, he⟩ := hmet
    obtain ⟨rfl, space', template', compiled, qs, rfl, he'⟩ :=
      h.eq_of_post hpost (place_of_agree position' hposts hpost he)
    obtain ⟨rfl, rfl⟩ := Prod.mk.inj (he.symm.trans he')
    exact .inl ⟨_, _, _, _, _, _, rfl, rfl, rfl⟩
  | list ps =>
    rw [Plan.Unmet] at hmet
    push Not at hmet
    obtain ⟨k, r, hr, he⟩ := hmet
    rw [List.getElem?_drop] at hr
    obtain ⟨qs, rfl, hk, hlt⟩ := h.eq_of_roll hr he
    refine .inr ⟨qs, ps, rfl, rfl, by omega, fun hnil => ?_⟩
    rw [hnil] at hlt
    cases hlt

end Stands

end LiveMarkup
