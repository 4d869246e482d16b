import LiveMarkup.Proofs.Rendering.Presentation
/-!
# Where instances are

Instances are found again by position: those that are nested in one another share a level, and each item of a list
has a slot with a level of its own. The roll of a plan says which instances the plan asks for and in which place
each of them is (`Plan.roll`). Two rolls agree if an instance that is found again is in the place where it was before
(`Roll.Agrees`); this can be decided from the values alone.
-/

namespace LiveMarkup

open Exhibit

/-- Where an instance is: at the top, in a hole of the instance at some position of the same level, or in a list. -/
inductive Place where
  | top
  | hole (owner : Nat) (form : Form) (number : Nat)
  | item (list : Place) (number : Nat)
  deriving DecidableEq

/-- The instances of a level in their order, each with its template and its place, and those in the slots. -/
inductive Roll where
  | mk (posts : List (Form × Place)) (slots : List Roll)

mutual

/-- The instances of a plan on the level where it is shown, if they begin at a position of the level. -/
def Plan.posts (place : Place) (position : Nat) : Plan → List (Form × Place)
  | .leaf _ => []
  | .use space template _ holes =>
    ((space, template), place) :: postsAll position (space, template) 0 (position + 1) holes
  | .list _ => []

/-- The instances of plans for the holes of an instance, from the hole of some number on. -/
def postsAll (owner : Nat) (form : Form) (number position : Nat) : List Plan → List (Form × Place)
  | [] => []
  | p :: rest => p.posts (.hole owner form number) position
    ++ postsAll owner form (number + 1) (position + p.forms.length) rest

end

mutual

/-- The instances of a plan in the slots of the level where it is shown. -/
def Plan.rolls (place : Place) (position : Nat) : Plan → List Roll
  | .leaf _ => []
  | .use space template _ holes => rollsAll position (space, template) 0 (position + 1) holes
  | .list items => rollsOfItems place 0 items

/-- The instances of plans for the holes of an instance that are in slots. -/
def rollsAll (owner : Nat) (form : Form) (number position : Nat) : List Plan → List Roll
  | [] => []
  | p :: rest => p.rolls (.hole owner form number) position
    ++ rollsAll owner form (number + 1) (position + p.forms.length) rest

/-- The instances of the items of a list, from the one of some number on. -/
def rollsOfItems (list : Place) (number : Nat) : List Plan → List Roll
  | [] => []
  | .leaf _ :: rest => rollsOfItems list number rest
  | p :: rest => ⟨p.posts (.item list number) 0, p.rolls (.item list number) 0⟩ :: rollsOfItems list (number + 1) rest

end

/-- The instances of a plan that is shown at the top. -/
def Plan.roll (p : Plan) : Roll :=
  ⟨p.posts .top 0, p.rolls .top 0⟩

/-! ### Agreement -/

/-- Wherever there is the same template at the same position, it is in the same place. -/
def PostsAgree : List (Form × Place) → List (Form × Place) → Prop
  | a :: as, b :: bs => (a.1 = b.1 → a.2 = b.2) ∧ PostsAgree as bs
  | _, _ => True

mutual

/-- No instance of the first roll that is found again for the second one changes its place. -/
def Roll.Agrees : Roll → Roll → Prop
  | ⟨as, rs⟩, ⟨bs, ss⟩ => PostsAgree as bs ∧ RollsAgree rs ss

/-- In no slot, an instance that is found again changes its place. -/
def RollsAgree : List Roll → List Roll → Prop
  | r :: rs, s :: ss => r.Agrees s ∧ RollsAgree rs ss
  | _, _ => True

end

instance PostsAgree.decide : ∀ as bs, Decidable (PostsAgree as bs)
  | a :: as, b :: bs =>
    have := PostsAgree.decide as bs
    inferInstanceAs (Decidable ((a.1 = b.1 → a.2 = b.2) ∧ PostsAgree as bs))
  | [], _ => .isTrue (by rw [PostsAgree]; trivial; exact fun _ _ _ _ h => by cases h)
  | _ :: _, [] => .isTrue (by rw [PostsAgree]; trivial; exact fun _ _ _ _ _ h => by cases h)

mutual

instance Roll.Agrees.decide : ∀ r s : Roll, Decidable (r.Agrees s)
  | ⟨as, rs⟩, ⟨bs, ss⟩ =>
    have := RollsAgree.decide rs ss
    inferInstanceAs (Decidable (PostsAgree as bs ∧ RollsAgree rs ss))

instance RollsAgree.decide : ∀ rs ss, Decidable (RollsAgree rs ss)
  | r :: rs, s :: ss =>
    have := Roll.Agrees.decide r s
    have := RollsAgree.decide rs ss
    inferInstanceAs (Decidable (r.Agrees s ∧ RollsAgree rs ss))
  | [], _ => .isTrue (by rw [RollsAgree]; trivial; exact fun _ _ _ _ h => by cases h)
  | _ :: _, [] => .isTrue (by rw [RollsAgree]; trivial; exact fun _ _ _ _ _ h => by cases h)

end

theorem postsAgree_nil (bs : List (Form × Place)) : PostsAgree [] bs := by
  rw [PostsAgree]
  · trivial
  · exact fun a as b bs' h => by cases h

theorem rollsAgree_nil (ss : List Roll) : RollsAgree [] ss := by
  rw [RollsAgree]
  · trivial
  · exact fun r rs s ss' h => by cases h

theorem postsAgree_append {as bs bs' : List (Form × Place)} :
    PostsAgree as (bs ++ bs') ↔ PostsAgree as bs ∧ PostsAgree (as.drop bs.length) bs' := by
  induction bs generalizing as with
  | nil =>
    rw [List.nil_append, List.length_nil, List.drop_zero, and_iff_right]
    cases as <;> trivial
  | cons b bs ih =>
    cases as with
    | nil => simp [postsAgree_nil]
    | cons a as => simp [PostsAgree, ih, and_assoc]

theorem rollsAgree_append {rs ss ss' : List Roll} :
    RollsAgree rs (ss ++ ss') ↔ RollsAgree rs ss ∧ RollsAgree (rs.drop ss.length) ss' := by
  induction ss generalizing rs with
  | nil =>
    rw [List.nil_append, List.length_nil, List.drop_zero, and_iff_right]
    cases rs <;> trivial
  | cons s ss ih =>
    cases rs with
    | nil => simp [rollsAgree_nil]
    | cons r rs => simp [RollsAgree, ih, and_assoc]

/-! ### Rolls of plans -/

theorem map_fst_posts :
    (∀ (p : Plan) place position, (p.posts place position).map Prod.fst = p.forms) ∧
      ∀ (ps : List Plan) owner form number position,
        (postsAll owner form number position ps).map Prod.fst = formsAll ps := by
  refine Plan.induct ?_ ?_ ?_ ?_ ?_
  · exact fun _ _ _ => rfl
  · intro space template compiled holes ih place position
    rw [Plan.posts, List.map_cons, ih, Plan.forms]
  · exact fun _ _ _ _ => rfl
  · exact fun _ _ _ _ => rfl
  · intro p ps ihp ihps owner form number position
    rw [postsAll, List.map_append, ihp, ihps, formsAll]

theorem length_posts (p : Plan) (place : Place) (position : Nat) :
    (p.posts place position).length = p.forms.length := by
  rw [← map_fst_posts.1 p place position, List.length_map]

theorem length_rolls :
    (∀ (p : Plan) place position, (p.rolls place position).length = p.decks.length) ∧
      ∀ ps : List Plan, (∀ owner form number position,
        (rollsAll owner form number position ps).length = (decksAll ps).length) ∧
        ∀ list number, (rollsOfItems list number ps).length = (decksOfItems ps).length := by
  refine Plan.induct ?_ ?_ ?_ ?_ ?_
  · exact fun _ _ _ => rfl
  · exact fun space template compiled holes ih place position => ih.1 ..
  · exact fun items ih place position => ih.2 ..
  · exact ⟨fun _ _ _ _ => rfl, fun _ _ => rfl⟩
  · intro p ps ihp ihps
    refine ⟨fun owner form number position => ?_, fun list number => ?_⟩
    · rw [rollsAll, List.length_append, ihp, ihps.1, decksAll, List.length_append]
    · cases p with
      | leaf => exact ihps.2 ..
      | use | list => exact congrArg (· + 1) (ihps.2 ..)

end LiveMarkup
