import LiveMarkup.Proofs.Rendering.Trimming
import LiveMarkup.Proofs.Template.Holes
import LiveMarkup.Rendering.Plan
/-!
# What a plan should show

The content of a template with what its holes add, each at the place where the hole is: in front of its
placeholder what the value of a child hole stands for, behind the attributes of its element the value of
an attribute hole, and as the content of its element the value of a text hole (`Plan.content`). This
says nothing about how it is brought about.

It is meant for plans whose child holes have null, a primitive, a use of a template, a list of uses or a
list of primitives, and whose other holes have null or a primitive (`Plan.Fits`), with templates that
have only plain attributes as holes (`Compiled.Plain`).
-/

namespace LiveMarkup

open Markup (Namespace Tree Tag)

/-- A primitive, or null. -/
def Value.IsPlain (v : Value) : Prop :=
  v.isNull = true ∨ v.isPrimitive = true

/-- The text of a value that has one. -/
def Value.written (v : Value) : String :=
  v.text?.getD ""

/-- The value of a plan without invocations. -/
def Plan.value : Plan → Value
  | .leaf v => v
  | _ => .null

/-- What a hole adds to the content of its template. -/
def Hole.trimming (h : Hole) (p : Plan) (content : List Tree) : Trimming (List Nat) Tree :=
  match h.kind with
  | .child => .leading h.path content
  | .attr name => .adorning h.path (if p.value.isNull then [] else [(name, p.value.written)])
  | .text =>
    .filling h.path (if p.value.written.isEmpty then [] else [.text p.value.written])

/-- What some holes add to the content of their template. -/
def Hole.trimmings : List Hole → List Plan → List (List Tree) → Trimming (List Nat) Tree
  | h :: holes, p :: plans, content :: rest =>
    (h.trimming p content).join (trimmings holes plans rest)
  | _, _, _ => .none

mutual

/-- What a plan stands for in a child hole. A list that starts with a primitive is one text. -/
def Plan.content : Plan → List Tree
  | .leaf v => if v.isNull then [] else [.text v.written]
  | .use _ _ compiled holes =>
    Tree.trimAll (Hole.trimmings compiled.holes holes (contents holes)) [] 0 compiled.content
  | .list (.leaf v :: rest) =>
    [.text (String.intercalate "," ((.leaf v :: rest).map fun p => p.value.written))]
  | .list items => (contents items).flatten

/-- What some plans stand for in child holes. -/
def Plan.contents : List Plan → List (List Tree)
  | [] => []
  | p :: rest => p.content :: contents rest

end

/-- The name of an attribute that is neither a reference, nor a property, nor an event. -/
structure PlainName (name : String) : Prop where
  not_ref : name ≠ "ref"
  not_property : name.toList.head? ≠ some '.'
  not_event : ¬ ['o', 'n'] <+: name.toList

/-- A template has something else than a placeholder, its attribute holes are plain ones with names of
their own, and no child hole is inside an element that has a text hole. -/
structure Compiled.Plain (c : Compiled) : Prop where
  not_lone : ∀ data, c.content = [.comment data] → ∀ h ∈ c.holes, h.kind ≠ .child
  names : ∀ h ∈ c.holes, ∀ name, h.kind = .attr name → PlainName name
  unlisted : ∀ h ∈ c.holes, ∀ name tag children, h.kind = .attr name →
    Tree.follow c.content h.path = some (.element tag children) →
    ∀ a ∈ tag.attributes, a.1 ≠ tag.space.spell name
  distinct : c.holes.Pairwise fun h h' => ∀ name name' tag children, h.kind = .attr name →
    h'.kind = .attr name' → h.path = h'.path →
    Tree.follow c.content h.path = some (.element tag children) →
    tag.space.spell name ≠ tag.space.spell name'
  open_ : ∀ h ∈ c.holes, ∀ h' ∈ c.holes, h.kind = .text → h'.kind = .child →
    ¬ h.path <+: h'.path

/-! ### Deciding whether a template is plain -/

instance (v : Value) : Decidable v.IsPlain :=
  inferInstanceAs (Decidable (_ ∨ _))

instance (name : String) : Decidable (PlainName name) :=
  decidable_of_iff (name ≠ "ref" ∧ name.toList.head? ≠ some '.' ∧ ¬ ['o', 'n'] <+: name.toList)
    ⟨fun h => ⟨h.1, h.2.1, h.2.2⟩, fun h => ⟨h.not_ref, h.not_property, h.not_event⟩⟩

/-- Whether a kind of hole is an attribute with a name of some sort. -/
instance HoleKind.decideAttr (kind : HoleKind) (p : String → Prop) [DecidablePred p] :
    Decidable (∀ name, kind = .attr name → p name) :=
  match kind with
  | .attr name => decidable_of_iff (p name) ⟨fun h name' he => by (cases he; exact h), fun h => h name rfl⟩
  | .child => .isTrue fun name he => by cases he
  | .text => .isTrue fun name he => by cases he

/-- Whether what a path leads to is no element, or one with a start tag of some sort. -/
def Markup.Tree.decideTag (found : Option Tree) (p : Tag → Prop) [DecidablePred p] :
    Decidable (∀ tag children, found = some (.element tag children) → p tag) :=
  match found with
  | some (.element tag children) =>
    decidable_of_iff (p tag) ⟨fun h tag' children' he => by (cases he; exact h), fun h => h tag children rfl⟩
  | some (.text _) => .isTrue fun tag children he => by cases he
  | some (.comment _) => .isTrue fun tag children he => by cases he
  | none => .isTrue fun tag children he => by cases he

instance (c : Compiled) : Decidable (∀ data, c.content = [.comment data] →
    ∀ h ∈ c.holes, h.kind ≠ .child) :=
  match hc : c.content with
  | [.comment data] =>
    decidable_of_iff (∀ h ∈ c.holes, h.kind ≠ .child) ⟨fun h _ _ => h, fun h => h data rfl⟩
  | [] | [.text _] | [.element _ _] | _ :: _ :: _ => .isTrue fun data he => by cases he

/-- Whether a hole, if it is that of an attribute, has a name of some sort for its element. -/
def Compiled.decideSpelled (c : Compiled) (h : Hole) (p : String → Tag → Prop)
    [∀ name, DecidablePred (p name)] :
    Decidable (∀ name tag children, h.kind = .attr name →
      Tree.follow c.content h.path = some (.element tag children) → p name tag) :=
  letI := fun name => Tree.decideTag (Tree.follow c.content h.path) (p name)
  letI := h.kind.decideAttr fun name => ∀ tag children,
    Tree.follow c.content h.path = some (.element tag children) → p name tag
  decidable_of_iff (∀ name, h.kind = .attr name → ∀ tag children,
      Tree.follow c.content h.path = some (.element tag children) → p name tag)
    ⟨fun hp name tag children hk hf => hp name hk tag children hf,
      fun hp name hk tag children hf => hp name tag children hk hf⟩

instance (c : Compiled) (h : Hole) : Decidable (∀ name tag children, h.kind = .attr name →
    Tree.follow c.content h.path = some (.element tag children) →
    ∀ a ∈ tag.attributes, a.1 ≠ tag.space.spell name) :=
  c.decideSpelled h fun name tag => ∀ a ∈ tag.attributes, a.1 ≠ tag.space.spell name

instance (c : Compiled) : DecidableRel fun h h' : Hole => ∀ name name' tag children,
    h.kind = .attr name → h'.kind = .attr name' → h.path = h'.path →
    Tree.follow c.content h.path = some (.element tag children) →
    tag.space.spell name ≠ tag.space.spell name' := fun h h' =>
  letI := fun name tag => h'.kind.decideAttr fun name' =>
    h.path = h'.path → Namespace.spell (Tag.space tag) name ≠ tag.space.spell name'
  letI := c.decideSpelled h fun name tag => ∀ name', h'.kind = .attr name' →
    h.path = h'.path → tag.space.spell name ≠ tag.space.spell name'
  decidable_of_iff (∀ name tag children, h.kind = .attr name →
      Tree.follow c.content h.path = some (.element tag children) →
      ∀ name', h'.kind = .attr name' → h.path = h'.path →
      tag.space.spell name ≠ tag.space.spell name')
    ⟨fun hp name name' tag children hk hk' he hf => hp name tag children hk hf name' hk' he,
      fun hp name tag children hk hf name' hk' he => hp name name' tag children hk hk' he hf⟩

instance (c : Compiled) : Decidable c.Plain :=
  decidable_of_iff
    ((∀ data, c.content = [.comment data] → ∀ h ∈ c.holes, h.kind ≠ .child) ∧
      (∀ h ∈ c.holes, ∀ name, h.kind = .attr name → PlainName name) ∧
      (∀ h ∈ c.holes, ∀ name tag children, h.kind = .attr name →
        Tree.follow c.content h.path = some (.element tag children) →
        ∀ a ∈ tag.attributes, a.1 ≠ tag.space.spell name) ∧
      (c.holes.Pairwise fun h h' => ∀ name name' tag children, h.kind = .attr name →
        h'.kind = .attr name' → h.path = h'.path →
        Tree.follow c.content h.path = some (.element tag children) →
        tag.space.spell name ≠ tag.space.spell name') ∧
      ∀ h ∈ c.holes, ∀ h' ∈ c.holes, h.kind = .text → h'.kind = .child → ¬ h.path <+: h'.path)
    ⟨fun ⟨h₁, h₂, h₃, h₄, h₅⟩ => ⟨h₁, h₂, h₃, h₄, h₅⟩,
      fun h => ⟨h.not_lone, h.names, h.unlisted, h.distinct, h.open_⟩⟩

/-- The plans that content can be given for. -/
inductive Plan.Fits : Plan → Prop where
  | leaf {v : Value} (h : v.IsPlain) : Fits (.leaf v)
  | use {space : Markup.Namespace} {template : Template} {compiled : Compiled} {holes : List Plan}
      (coherent : compiled.Coherent) (plain : compiled.Plain)
      (count : compiled.holes.length = holes.length) (fits : ∀ p ∈ holes, Fits p)
      (leaves : ∀ h ∈ compiled.holes.zip holes, h.1.kind ≠ .child → ∃ v, h.2 = .leaf v) :
      Fits (.use space template compiled holes)
  | list {items : List Plan} (fits : ∀ p ∈ items, Fits p)
      (uses : ∀ p ∈ items, ∃ space template compiled holes,
        p = .use space template compiled holes) : Fits (.list items)
  | texts {v : Value} {rest : List Value} (hv : v.isPrimitive = true)
      (h : ∀ v ∈ rest, v.IsPlain) : Fits (.list ((v :: rest).map .leaf))

/-- Induction over plans and lists of plans. -/
theorem Plan.induct {motive : Plan → Prop} {motives : List Plan → Prop}
    (leaf : ∀ value, motive (.leaf value))
    (use : ∀ space template compiled holes, motives holes →
      motive (.use space template compiled holes))
    (list : ∀ items, motives items → motive (.list items)) (nil : motives [])
    (cons : ∀ p ps, motive p → motives ps → motives (p :: ps)) :
    (∀ p, motive p) ∧ ∀ ps, motives ps :=
  ⟨@Plan.rec motive motives leaf use list nil cons,
    @Plan.rec_1 motive motives leaf use list nil cons⟩

end LiveMarkup
