import LiveMarkup.Rendering.Failure
import LiveMarkup.Template.Compiled
/-!
# Plans

Before anything is rendered, the templates of all invocations in a value are compiled and their
values counted. The outcome is a `Plan`: the value with a compiled template at each invocation that
will be shown. All that can go wrong does so here, so showing a plan always succeeds.
-/

namespace LiveMarkup

open Markup (Namespace)

/-- A value whose invocations have been looked at. -/
inductive Plan where
  | leaf (value : Value)
  | use (space : Namespace) (template : Template) (compiled : Compiled) (holes : List Plan)
  | list (items : List Plan)
deriving Inhabited

/-- A use of a compiled template, with a plan for each of its holes. -/
structure Use where
  space : Namespace
  template : Template
  compiled : Compiled
  holes : List Plan
deriving Inhabited

/-- The templates that have been compiled. A template is compiled once for each namespace; failures
are not kept. -/
structure Catalogue where
  entries : List ((Namespace × Template) × Compiled)
  /-- How many marker attributes have been taken off content in all. -/
  attributesTaken : Nat
deriving Inhabited

namespace Catalogue

/-- Nothing has been compiled. -/
def empty : Catalogue :=
  ⟨[], 0⟩

/-- The compiled template, made when it is first asked for. -/
def compile (c : Catalogue) (space : Namespace) (template : Template) :
    Except Failure Compiled × Catalogue :=
  match c.entries.lookup (space, template) with
  | some compiled => (.ok compiled, c)
  | none =>
    let made := template.compilation space
    let c := { c with attributesTaken := c.attributesTaken + made.attributesTaken }
    if made.isComplete then
      (.ok made.compiled, { c with entries := ((space, template), made.compiled) :: c.entries })
    else (.error (.markersLost made.markup made.expected made.compiled.holes.length), c)

/-- The compiled template for a use with some number of values. -/
def prepare (c : Catalogue) (space : Namespace) (template : Template) (values : Nat) :
    Except Failure Compiled × Catalogue :=
  match c.compile space template with
  | (.error e, c) => (.error e, c)
  | (.ok compiled, c) =>
    if compiled.holes.length = values then (.ok compiled, c)
    else (.error (.valueCount compiled.holes.length values), c)

mutual

/-- The plan for the value of a hole. The invocations in it are those it is or has as items. -/
def plan (c : Catalogue) : Value → Except Failure Plan × Catalogue
  | .invocation space template values =>
    match c.prepare space template values.length with
    | (.error e, c) => (.error e, c)
    | (.ok compiled, c) =>
      match planAll c values with
      | (.error e, c) => (.error e, c)
      | (.ok holes, c) => (.ok (.use space template compiled holes), c)
  | .list items =>
    match planItems c items with
    | (.error e, c) => (.error e, c)
    | (.ok items, c) => (.ok (.list items), c)
  | value => (.ok (.leaf value), c)

/-- The plans for the values of some holes. -/
def planAll (c : Catalogue) : List Value → Except Failure (List Plan) × Catalogue
  | [] => (.ok [], c)
  | value :: rest =>
    match plan c value with
    | (.error e, c) => (.error e, c)
    | (.ok first, c) =>
      match planAll c rest with
      | (.error e, c) => (.error e, c)
      | (.ok others, c) => (.ok (first :: others), c)

/-- The plans for the items of a list. A list inside a list is left as it is. -/
def planItems (c : Catalogue) : List Value → Except Failure (List Plan) × Catalogue
  | [] => (.ok [], c)
  | value :: rest =>
    match (match value with
      | .invocation .. => plan c value
      | _ => (.ok (.leaf value), c)) with
    | (.error e, c) => (.error e, c)
    | (.ok first, c) =>
      match planItems c rest with
      | (.error e, c) => (.error e, c)
      | (.ok others, c) => (.ok (first :: others), c)

end

/-- The plan for an invocation. -/
def planUse (c : Catalogue) (space : Namespace) (template : Template) (values : List Value) :
    Except Failure Use × Catalogue :=
  match c.prepare space template values.length with
  | (.error e, c) => (.error e, c)
  | (.ok compiled, c) =>
    match c.planAll values with
    | (.error e, c) => (.error e, c)
    | (.ok holes, c) => (.ok ⟨space, template, compiled, holes⟩, c)

end Catalogue

end LiveMarkup
