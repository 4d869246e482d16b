import LiveMarkup.Value.Basic
/-!
# Values from data of the host

Integers become the nearest number, and data that is missing becomes null.
-/

namespace LiveMarkup.Value

/-- An integer as a number. -/
def ofInt (n : Int) : Value :=
  .number (Binary64.ofInt n)

/-- Data that may be missing. -/
def ofOption {α : Type} (value : α → Value) : Option α → Value
  | some a => value a
  | none => .null

end LiveMarkup.Value
