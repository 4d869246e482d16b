import LiveMarkup.Markup.Basic
/-!
# Templates

A template is markup cut into segments, with a hole between each two. Templates are told apart by
where they are declared and not by their text, so each carries a number of its own.
-/

namespace LiveMarkup

/-- A declared template. -/
structure Template where
  id : Nat
  segments : List String
deriving DecidableEq, Repr, Inhabited

namespace Template

/-- The number of holes that the segments leave between them. -/
def gaps (template : Template) : Nat :=
  template.segments.length - 1

end Template

/-- What a hole of a template is filled with. -/
inductive HoleKind where
  /-- Child content, which goes in front of a placeholder comment. -/
  | child
  /-- The value of the attribute of this name, as written in the template. -/
  | attr (name : String)
  /-- The whole text of a `style` or `textarea` element. -/
  | text
deriving DecidableEq, Repr, Inhabited

/-- A hole and where it is: the child indices from the root of the content to its node. -/
structure Hole where
  kind : HoleKind
  path : List Nat
deriving DecidableEq, Repr, Inhabited

/-- What marks hole `i`: the name of an attribute, or the data of a comment. -/
def marker (i : Nat) : String :=
  "isµ" ++ toString i

end LiveMarkup
