import LiveMarkup.Proofs.Rendering.Replenishing
/-!
# What is found again

A plan is shown on a level on which another one has been shown. Some of what has been on show is found again in
its place, and the rest is not (`Exhibit.Meets`): an instance that is found again is in the hole, or in the slot of
the item, where it was found before, and so are those around it.
-/

namespace LiveMarkup

open Exhibit

/-! ### Templates with a first node of their own -/

mutual

/-- Every template that is used in a plan has been compiled, and its content begins with a node of its own. -/
def Plan.AllHeaded : Plan → Prop
  | .leaf _ => True
  | .use space template compiled holes =>
    compiled = (template.compilation space).compiled ∧ compiled.Headed ∧ PlansHeaded holes
  | .list items => PlansHeaded items

/-- Every template that is used in some plans has been compiled, and its content begins with a node of its own. -/
def PlansHeaded : List Plan → Prop
  | [] => True
  | p :: rest => p.AllHeaded ∧ PlansHeaded rest

end

theorem plansHeaded_iff {ps : List Plan} : PlansHeaded ps ↔ ∀ p ∈ ps, p.AllHeaded := by
  induction ps with
  | nil => simp [PlansHeaded]
  | cons p ps ih => simp [PlansHeaded, ih]

namespace Exhibit

variable {x : Exhibit} {p : Plan}

/-- The blocks that a plan is shown as span all that they come to. -/
theorem spans_of_allHeaded {d : Document} (hx : x.Shows p) (hfits : p.Fits) (hp : p.AllHeaded) (hf : d.Forest)
    (hloose : ∀ y ∈ x.pieces, d.Loose y.1 y.2) : ∀ y ∈ x.pieces, y.1.Spans (y.2.map Plant.id) := by
  cases hfits with
  | leaf =>
    rw [eq_leaf_of_shows hx]
    exact fun y hy => by cases hy
  | use => exact spans_pieces hx (.use hp.2.1) hf hloose
  | @list items _ huses =>
    refine spans_pieces hx (.list fun p hp' => ?_) hf hloose
    obtain ⟨space, template, compiled, holes, rfl⟩ := huses p hp'
    exact ⟨_, _, _, _, rfl, (plansHeaded_iff.1 hp _ hp').2.1⟩
  | @texts v rest hv h =>
    rw [pieces_of_primitive hx (.texts hv h) rfl]
    exact fun y hy => by cases hy

/-! ### Meeting -/

mutual

/-- How an exhibit, of which the rest has been given up, is met by a plan that is shown with some instances and
slots: nothing of it is found again, or it is a use whose instance is the next one, or the items of a list are met
one by one. -/
inductive Meets : List Instance → List Cache → Exhibit → Plan → Prop where
  | anew {is : List Instance} {cs : List Cache} {x : Exhibit} {p : Plan} (bare : x.entries = [])
      (spans : ∀ y ∈ x.pieces, y.1.Spans (y.2.map Plant.id)) (fits : p.Fits) (headed : p.AllHeaded)
      (instances : Misses is p.forms) (slots : SlotsMiss cs p.decks) : Meets is cs x p
  | again {i : Instance} {is : List Instance} {cs : List Cache} {roots : List Plant} {es : List (Binding × Spot)}
      {xs : List Exhibit} {space : Markup.Namespace} {template : Template} {compiled : Compiled} {ps : List Plan}
      (space_ : i.space = space) (template_ : i.template = template) (tops : i.block.nodes = roots.map Plant.id)
      (trees : Plant.trees roots = compiled.content) (nodup : (Plant.idsAll roots).Nodup)
      (fits : (Plan.use space template compiled ps).Fits) (headed : compiled.Headed)
      (holes : MeetsAll roots compiled.holes es is cs xs ps) :
      Meets ({ i with bindings := es.map Prod.fst } :: is) cs (seated i roots es xs) (.use space template compiled ps)
  | list {is : List Instance} {cs : List Cache} {xs : List Exhibit} {ps : List Plan} (items : MeetsItems cs xs ps) :
      Meets is cs (.list xs) (.list ps)

/-- How what has been shown in some holes is met by the plans for them. -/
inductive MeetsAll : List Plant → List Hole → List (Binding × Spot) → List Instance → List Cache → List Exhibit →
    List Plan → Prop where
  | nil {roots : List Plant} {is : List Instance} {cs : List Cache} : MeetsAll roots [] [] is cs [] []
  | cons {roots : List Plant} {h : Hole} {e : Binding × Spot} {is : List Instance} {cs : List Cache} {x : Exhibit}
      {q p : Plan} {holes : List Hole} {es : List (Binding × Spot)} {xs : List Exhibit} {ps : List Plan}
      (at_ : h.At roots e) (shown : Shown e x.blocks q) (bare : q.primitive?.isSome = true → x.pieces = []) (fits : q.Fits)
      (leaf : h.kind ≠ .child → ∃ v w, q = .leaf v ∧ p = .leaf w ∧ x = .leaf v) (head : Meets is cs x p)
      (tail : MeetsAll roots holes es (is.drop p.forms.length) (cs.drop p.decks.length) xs ps) :
      MeetsAll roots (h :: holes) (e :: es) is cs (x :: xs) (p :: ps)

/-- How the items of a list are met by those of another one, each in its slot. -/
inductive MeetsItems : List Cache → List Exhibit → List Plan → Prop where
  /-- Items are left over for which there is no plan. -/
  | rest {cs : List Cache} {xs : List Exhibit} (bare : entriesAll xs = [])
      (spans : ∀ y ∈ piecesAll xs, y.1.Spans (y.2.map Plant.id)) : MeetsItems cs xs []
  /-- Plans are left over for which there are no items. -/
  | more {cs : List Cache} {ps : List Plan} (fits : ∀ p ∈ ps, p.Fits) (headed : PlansHeaded ps)
      (uses : ∀ p ∈ ps, ∃ space template compiled holes, p = .use space template compiled holes)
      (slots : SlotsMiss cs (decksOfItems ps)) : MeetsItems cs [] ps
  | cons {cs : List Cache} {x : Exhibit} {xs : List Exhibit} {space : Markup.Namespace} {template : Template}
      {compiled : Compiled} {holes ps : List Plan} (root : (cs.headD .empty).root = none)
      (head : Meets (cs.headD .empty).instances (cs.headD .empty).slots x (.use space template compiled holes))
      (tail : MeetsItems (cs.drop 1) xs ps) : MeetsItems cs (x :: xs) (.use space template compiled holes :: ps)

end

end Exhibit

end LiveMarkup
