import LiveMarkup.Proofs.Rendering.Exhibit
import LiveMarkup.Proofs.Rendering.Expansion
/-!
# Exhibits that show a plan

An exhibit shows a plan if its instances are those that the plan asks for, and each binding remembers
what its hole has in the plan and adds that to the plants (`Exhibit.Shows`). The markup of the plants is
then what the plan should show (`Exhibit.shows_trees`).
-/

namespace LiveMarkup

open Markup (Tree)

/-- A binding and its spot are at the node that the path of the hole leads to. -/
def Hole.At (roots : List Plant) (h : Hole) (e : Binding × Spot) : Prop :=
  ∃ q, Plant.follow roots h.path = some q ∧ e.2.place = q.id ∧
    match h.kind, e with
    | .child, (.child _, .child _ _) => True
    | .attr name, (.attr _ _ _ _, .attr _ name' _) =>
      ∃ id tag children, q = .element id tag children ∧ name' = tag.space.spell name
    | .text, (.text _ _, .text _ _) => True
    | _, _ => False

/-- A binding has shown nothing, and its spot adds nothing. -/
def Unused : Binding × Spot → Prop
  | (.child c, .child _ plants) => c.shown = none ∧ c.entries = [] ∧ plants = []
  | (.attr _ _ attached last, .attr _ _ value) => attached = false ∧ last = none ∧ value = none
  | (.text _ last, .text _ content) => last = none ∧ content = none
  | _ => False

/-- The primitive that a plan is shown as in a child hole, if it is one. -/
def Plan.primitive? : Plan → Option Value
  | .leaf v => if v.isNull then none else some v
  | .list (.leaf v :: rest) =>
    some (.string (String.intercalate "," ((.leaf v :: rest).map fun p => p.value.written)))
  | _ => none

/-- A value passes for another one if it is that one, or the same by content. -/
def Value.Passes (v w : Value) : Prop :=
  v = w ∨ v.isSame w = true

/-- A binding remembers a plan that is shown in its hole, or what passes for it, and its spot adds what
the plan comes to by itself; `blocks` are those that the plan comes to. -/
def Shown (e : Binding × Spot) (blocks : List Block) (p : Plan) : Prop :=
  match e with
  | (.child c, .child _ plants) =>
    Option.Rel Value.Passes c.shown p.primitive? ∧
      match p.primitive? with
      | some v => c.entries = [.single c.text] ∧ plants = [.text c.text v.written]
      | none => c.entries = blocks ∧ plants = []
  | (.attr _ _ attached last, .attr _ _ value) =>
    Option.Rel Value.Passes last (some p.value) ∧ attached = !p.value.isNull ∧
      value = if p.value.isNull then none else some p.value.written
  | (.text _ last, .text _ content) =>
    Option.Rel Value.Passes last (some p.value) ∧ ∃ plants, content = some plants ∧
      Plant.trees plants = if p.value.written.isEmpty then [] else [.text p.value.written]
  | _ => False

namespace Exhibit

/-- The blocks that an exhibit comes to. -/
def blocks (x : Exhibit) : List Block :=
  x.pieces.map Prod.fst

/-- The bindings of some holes show some plans, with exhibits for what is nested. -/
inductive ShownIn (roots : List Plant) :
    List Hole → List (Binding × Spot) → List Exhibit → List Plan → Prop where
  | nil : ShownIn roots [] [] [] []
  | cons {h : Hole} {e : Binding × Spot} {x : Exhibit} {p : Plan} {holes : List Hole}
      {entries : List (Binding × Spot)} {xs : List Exhibit} {ps : List Plan} (at_ : h.At roots e)
      (shown : Shown e x.blocks p) (leaf : h.kind ≠ .child → ∃ v, p = .leaf v)
      (rest : ShownIn roots holes entries xs ps) :
      ShownIn roots (h :: holes) (e :: entries) (x :: xs) (p :: ps)

mutual

/-- An exhibit shows a plan. -/
def Shows : Exhibit → Plan → Prop
  | leaf v, .leaf w => v = w
  | use i roots spots xs, .use space template compiled ps =>
    i.space = space ∧ i.template = template ∧ i.block.nodes = roots.map Plant.id ∧
      Plant.trees roots = compiled.content ∧
      (Plant.idsAll roots).Nodup ∧ i.bindings.length = spots.length ∧
      ShownIn roots compiled.holes (i.bindings.zip spots) xs ps ∧ ShowsAll xs ps
  | list xs, .list ps => ShowsAll xs ps
  | _, _ => False

/-- Some exhibits show some plans. -/
def ShowsAll : List Exhibit → List Plan → Prop
  | [], [] => True
  | x :: xs, p :: ps => x.Shows p ∧ ShowsAll xs ps
  | _, _ => False

end

/-- Only a value is shown by a value. -/
theorem shows_leaf_iff {x : Exhibit} {p : Plan} (h : x.Shows p) : (∃ v, x = .leaf v) ↔ ∃ v, p = .leaf v := by
  cases x <;> cases p <;> first | exact False.elim h | simp

theorem ne_leaf_of_shows {x : Exhibit} {p : Plan} (h : x.Shows p) (hp : ∀ v, p ≠ .leaf v) (v : Value) :
    x ≠ .leaf v :=
  fun he => ((shows_leaf_iff h).1 ⟨v, he⟩).elim hp

end Exhibit

/-! ### What is on show is what should be -/

namespace Trimming

variable {s s' : Trimming NodeId Plant} {t t' : Trimming (List Nat) Tree} {r : Plant} {n : NodeId}
  {path path' : List Nat}

theorem Agrees.none : (none : Trimming NodeId Plant).Agrees .none r path :=
  ⟨Plant.trees_nil, fun _ _ _ _ => rfl, rfl⟩

theorem Agrees.join (h : s.Agrees t r path) (h' : s'.Agrees t' r path) :
    (s.join s').Agrees (t.join t') r path where
  before := by
    show Plant.trees (s.before r.id ++ s'.before r.id) = t.before path ++ t'.before path
    rw [Plant.trees_append, h.before, h'.before]
  attributes id tag children hr := by
    show s.attributes id ++ s'.attributes id = (t.attributes path ++ t'.attributes path).map _
    rw [h.attributes id tag children hr, h'.attributes id tag children hr, List.map_append]
  content := by
    show ((s.content r.id).or (s'.content r.id)).map Plant.trees = (t.content path).or (t'.content path)
    rw [← h.content, ← h'.content]
    cases s.content r.id <;> rfl

theorem agrees_leading (h : r.id = n ↔ path = path') (plants : List Plant) :
    (leading n plants).Agrees (leading path' (Plant.trees plants)) r path where
  before := by
    by_cases hr : r.id = n
    · simp [leading, hr, h.1 hr]
    · have hp : path ≠ path' := fun hp => hr (h.2 hp)
      simp [leading, hr, hp]
  attributes _ _ _ _ := rfl
  content := rfl

theorem agrees_filling (h : r.id = n ↔ path = path') (plants : List Plant) :
    (filling n plants).Agrees (filling path' (Plant.trees plants)) r path where
  before := Plant.trees_nil
  attributes _ _ _ _ := rfl
  content := by
    by_cases hr : r.id = n
    · simp [filling, hr, h.1 hr]
    · have hp : path ≠ path' := fun hp => hr (h.2 hp)
      simp [filling, hr, hp]

end Trimming

namespace Exhibit

variable {roots : List Plant} {h : Hole} {e : Binding × Spot} {x : Exhibit} {p : Plan}
  {xs : List Exhibit} {ps : List Plan}

theorem eq_leaf_of_shows {v : Value} (h : x.Shows (.leaf v)) : x = .leaf v := by
  cases x with
  | leaf w =>
    rw [show w = v from h]
  | use i roots spots xs => exact False.elim h
  | list items => exact False.elim h

/-- An exhibit comes to what its plan should show, together with what its hole adds. -/
def Right (x : Exhibit) (p : Plan) : Prop :=
  match p.primitive? with
  | some v => x.plants = [] ∧ p.content = [.text v.written]
  | none => Plant.trees x.plants = p.content

/-- What a hole adds to the plants agrees with what it should add to the content. -/
theorem agrees_spot (hnd : (Plant.idsAll roots).Nodup) (hat : h.At roots e)
    (hshown : Shown e x.blocks p) (hleaf : h.kind ≠ .child → ∃ v, p = .leaf v) (hx : x.Shows p)
    (hright : x.Right p) {path : List Nat} {r : Plant} (hr : Plant.follow roots path = some r) :
    (e.2.trimmingWith x.plants).Agrees (h.trimming p p.content) r path := by
  obtain ⟨q, hq, hplace, hkind⟩ := hat
  have hiff : r.id = e.2.place ↔ path = h.path := by
    rw [hplace]
    constructor
    · exact fun hid => Plant.eq_of_follow hnd hr hq hid
    · rintro rfl
      rw [hr] at hq
      cases hq
      rfl
  have hnone : h.kind ≠ .child → x.plants = [] := by
    intro hne
    obtain ⟨v, rfl⟩ := hleaf hne
    cases x with
    | leaf w => rfl
    | use i roots spots xs => exact False.elim hx
    | list items => exact False.elim hx
  obtain ⟨b, s⟩ := e
  obtain ⟨kind, path'⟩ := h
  cases kind with
  | child =>
    cases b <;> cases s <;> try exact False.elim hkind
    case child.child c n plants =>
      have hcontent : Plant.trees (plants ++ x.plants) = p.content := by
        obtain ⟨-, hplants⟩ := hshown
        rw [Right] at hright
        cases hp : p.primitive? with
        | none =>
          rw [hp] at hplants hright
          rw [hplants.2, List.nil_append]
          exact hright
        | some v =>
          rw [hp] at hplants hright
          rw [hplants.2, hright.1, hright.2]
          simp [Plant.tree]
      show ((Trimming.leading n plants).join (.leading n x.plants)).Agrees
        (.leading path' p.content) r path
      rw [Trimming.leading_join, ← hcontent]
      exact Trimming.agrees_leading hiff _
  | attr raw =>
    cases b <;> cases s <;> try exact False.elim hkind
    case attr.attr n a attached last n' name value =>
      obtain ⟨id, tag, children, rfl, rfl⟩ := hkind
      obtain ⟨-, -, rfl⟩ := hshown
      rw [Spot.trimmingWith, hnone (by simp), Trimming.leading_nil, Trimming.join_none]
      refine ⟨Plant.trees_nil, fun id' tag' children' hr' => ?_, rfl⟩
      subst hr'
      show (if id' = n' then _ else _) = ((if path = path' then _ else _ : List _).map _)
      by_cases hid : id' = n'
      · have hpath := hiff.1 hid
        dsimp only at hpath hq
        subst hpath
        rw [hr] at hq
        cases hq
        rw [if_pos hid, if_pos rfl]
        split <;> rfl
      · rw [if_neg hid, if_neg fun hp => hid (hiff.2 hp)]
        rfl
  | text =>
    cases b <;> cases s <;> try exact False.elim hkind
    case text.text n last n' content =>
      obtain ⟨-, plants, rfl, hplants⟩ := hshown
      rw [Spot.trimmingWith, hnone (by simp), Trimming.leading_nil, Trimming.join_none]
      show (Trimming.filling n' plants).Agrees (.filling path' _) r path
      rw [← hplants]
      exact Trimming.agrees_filling hiff _

theorem agrees_spots {holes : List Hole} {es : List (Binding × Spot)}
    (hnd : (Plant.idsAll roots).Nodup) (hs : ShownIn roots holes es xs ps)
    (hx : List.Forall₂ (fun x p => x.Shows p ∧ x.Right p) xs ps) {path : List Nat} {r : Plant}
    (hr : Plant.follow roots path = some r) :
    (Spot.trimmings (es.map Prod.snd) (plantsAll xs)).Agrees
      (Hole.trimmings holes ps (Plan.contents ps)) r path := by
  induction hs with
  | nil => exact .none
  | cons at_ shown leaf rest ih =>
    rw [List.forall₂_cons] at hx
    rw [List.map_cons, plantsAll, Spot.trimmings, Plan.contents, Hole.trimmings]
    exact (agrees_spot hnd at_ shown leaf hx.1.1 hx.1.2 hr).join (ih hx.2)

/-- The plants of some texts are none: they are shown by the binding of their list. -/
theorem plantsAll_of_leaves {vs : List Value} (h : ShowsAll xs (vs.map .leaf)) :
    (plantsAll xs).flatten = [] := by
  induction vs generalizing xs with
  | nil =>
    cases xs with
    | nil => rw [plantsAll, List.flatten_nil]
    | cons x xs => exact False.elim h
  | cons v vs ih =>
    cases xs with
    | nil => exact False.elim h
    | cons x xs =>
      cases x with
      | leaf w => rw [plantsAll, plants, List.flatten_cons, ih h.2, List.nil_append]
      | use i roots spots xs => exact False.elim h.1
      | list items => exact False.elim h.1

theorem trees_flatten (hx : List.Forall₂ (fun x p => x.Shows p ∧ x.Right p) xs ps)
    (huses : ∀ p ∈ ps, p.primitive? = none) :
    Plant.trees (plantsAll xs).flatten = (Plan.contents ps).flatten := by
  induction hx with
  | nil => rw [plantsAll, Plan.contents, List.flatten_nil, List.flatten_nil, Plant.trees_nil]
  | @cons x p xs ps hxp _ ih =>
    have hright := hxp.2
    rw [Right, huses p (List.mem_cons_self ..)] at hright
    rw [plantsAll, Plan.contents, List.flatten_cons, List.flatten_cons, Plant.trees_append, hright,
      ih fun p hp => huses p (List.mem_cons_of_mem _ hp)]

/-- What an exhibit comes to is what its plan should show. -/
theorem shows_right :
    (∀ (x : Exhibit) (p : Plan), x.Shows p → p.Fits → x.Right p) ∧
      ∀ (xs : List Exhibit) (ps : List Plan), ShowsAll xs ps → (∀ p ∈ ps, p.Fits) →
        List.Forall₂ (fun x p => x.Shows p ∧ x.Right p) xs ps := by
  refine induct ?_ ?_ ?_ ?_ ?_
  · intro v p hx _
    cases p with
    | leaf w =>
      cases hx
      rw [Right, Plan.primitive?, Plan.content, plants]
      cases hv : v.isNull with
      | true => exact Plant.trees_nil
      | false => exact ⟨rfl, rfl⟩
    | use space template compiled holes => exact False.elim hx
    | list items => exact False.elim hx
  · intro i roots spots xs ih p hx hfits
    cases p with
    | use space template compiled ps =>
      obtain ⟨-, -, -, htrees, hnd, hlength, hshown, hall⟩ := hx
      cases hfits with
      | use _ _ _ hfits _ =>
        have hspots : (i.bindings.zip spots).map Prod.snd = spots :=
          List.map_snd_zip (Nat.le_of_eq hlength.symm)
        have hagrees : ∀ path r, Plant.follow roots path = some r → Trimming.Agrees _ _ r path :=
          fun path r => agrees_spots hnd hshown (ih ps hall hfits)
        rw [hspots] at hagrees
        show Plant.trees (plants _) = Plan.content _
        rw [plants, Trimming.trees_graftAll_put hagrees, htrees, Plan.content]
    | leaf w => exact False.elim hx
    | list items => exact False.elim hx
  · intro xs ih p hx hfits
    cases p with
    | list ps =>
      cases hfits with
      | list hfits huses =>
        have hnone : ∀ p ∈ ps, p.primitive? = none := by
          intro p hp
          obtain ⟨space, template, compiled, holes, rfl⟩ := huses p hp
          rfl
        have hplan : (Plan.list ps).primitive? = none ∧
            (Plan.list ps).content = (Plan.contents ps).flatten := by
          cases ps with
          | nil => exact ⟨rfl, by rw [Plan.content]; exact fun v rest he => by cases he⟩
          | cons p ps =>
            obtain ⟨space, template, compiled, holes, rfl⟩ := huses p (List.mem_cons_self ..)
            exact ⟨rfl, by rw [Plan.content]; exact fun v rest he => by cases he⟩
        rw [Right, hplan.1, hplan.2, plants]
        exact trees_flatten (ih ps hx hfits) hnone
      | @texts v rest =>
        rw [Right]
        refine ⟨?_, ?_⟩
        · rw [plants]
          exact @plantsAll_of_leaves _ (v :: rest) hx
        · rw [List.map_cons, Plan.content]
          rfl
    | leaf w => exact False.elim hx
    | use space template compiled holes => exact False.elim hx
  · intro ps hxs _
    cases ps with
    | nil => exact .nil
    | cons p ps => exact False.elim hxs
  · intro x xs ihx ihxs ps hxs hfits
    cases ps with
    | nil => exact False.elim hxs
    | cons p ps =>
      exact .cons ⟨hxs.1, ihx p hxs.1 (hfits p (List.mem_cons_self ..))⟩
        (ihxs ps hxs.2 fun p hp => hfits p (List.mem_cons_of_mem _ hp))

/-- The markup of an exhibit for a use of a template is what the plan should show. -/
theorem trees_plants {space : Markup.Namespace} {template : Template} {compiled : Compiled}
    {holes : List Plan} (hx : x.Shows (.use space template compiled holes))
    (hfits : (Plan.use space template compiled holes).Fits) :
    Plant.trees x.plants = (Plan.use space template compiled holes).content :=
  shows_right.1 x _ hx hfits

end Exhibit

end LiveMarkup
