import LiveMarkup.Value.Basic
/-!
# Why a value cannot be rendered

Only three things can go wrong, all of them before anything has been shown.
-/

namespace LiveMarkup

/-- A reason why a value is not rendered. -/
inductive Failure where
  /-- Some markers of a template were not found again in its marked text. -/
  | markersLost (markup : String) (expected found : Nat)
  /-- A template is used with a number of values other than that of its holes. -/
  | valueCount (expected found : Nat)
  /-- The value is no invocation, node or block. -/
  | notRenderable (shape : Shape)
deriving DecidableEq, Repr

/-- The text of a failure. -/
def Failure.message : Failure → String
  | markersLost markup expected found =>
    "bad template, expected " ++ toString expected ++ " hole(s) but found " ++ toString found
      ++ ": " ++ markup
  | valueCount expected found =>
    "template has " ++ toString expected ++ " hole(s) but was given " ++ toString found
      ++ " value(s)"
  | notRenderable shape =>
    "only template invocations, nodes and wires can be rendered into a container, not "
      ++ shape.name

end LiveMarkup
