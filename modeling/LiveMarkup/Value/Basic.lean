import LiveMarkup.Number.Layout
import LiveMarkup.Template.Basic
import LiveMarkup.Value.Block
/-!
# Values

What the holes of a template are filled with. Null, truth values, numbers and strings compare by
what they are; nodes, blocks, listeners, cells and host objects by identity; lists and invocations
are made anew for each use and so equal nothing.
-/

namespace LiveMarkup

/-- A value for a hole. -/
inductive Value where
  | null
  | bool (b : Bool)
  | number (x : Binary64)
  | string (s : String)
  | node (node : NodeId)
  | block (block : Block)
  | list (items : List Value)
  /-- A use of a template with a value for each hole. -/
  | invocation (space : Markup.Namespace) (template : Template) (values : List Value)
  | listener (listener : ListenerId)
  | cell (cell : CellId)
  | object (object : ObjectId)
deriving Repr, Inhabited

/-- The sorts of value. -/
inductive Shape where
  | null
  | bool
  | number
  | string
  | node
  | block
  | list
  | invocation
  | listener
  | cell
  | object
deriving DecidableEq, Repr, Inhabited

/-- The name that messages have for a sort of value. -/
def Shape.name : Shape → String
  | null => "null"
  | bool => "bool"
  | number => "number"
  | string => "string"
  | node => "node"
  | block => "wire"
  | list => "list"
  | invocation => "hole"
  | listener => "listener"
  | cell => "ref"
  | object => "opaque"

namespace Value

/-- The sort of a value. -/
def shape : Value → Shape
  | null => .null
  | bool _ => .bool
  | number _ => .number
  | string _ => .string
  | node _ => .node
  | block _ => .block
  | list _ => .list
  | invocation .. => .invocation
  | listener _ => .listener
  | cell _ => .cell
  | object _ => .object

/-- Whether a value is null. -/
def isNull : Value → Bool
  | null => true
  | _ => false

/-- Truth values, numbers and strings. -/
def isPrimitive : Value → Bool
  | bool _ | number _ | string _ => true
  | _ => false

/-- Whether two values are the same: by content for primitives, by identity for all else. -/
def isSame : Value → Value → Bool
  | null, null => true
  | bool a, bool b => a == b
  | number a, number b => a.sameNumber b
  | string a, string b => a == b
  | node a, node b => a == b
  | block a, block b => a == b
  | listener a, listener b => a == b
  | cell a, cell b => a == b
  | object a, object b => a == b
  | _, _ => false

mutual

/-- The text of a value in an attribute or between tags. Lists are joined with commas; nodes,
blocks, invocations, listeners, cells and host objects have no text, nor has a list with one of
them. -/
def text? : Value → Option String
  | null => some ""
  | bool b => some (if b then "true" else "false")
  | number x => some (Layout.shown.write x)
  | string s => some s
  | list items => (texts? items).map (String.intercalate ",")
  | node _ | block _ | invocation .. | listener _ | cell _ | object _ => none

/-- The texts of some values, if all of them have one. -/
def texts? : List Value → Option (List String)
  | [] => some []
  | value :: rest =>
    match value.text?, texts? rest with
    | some t, some ts => some (t :: ts)
    | _, _ => none

end

end Value

end LiveMarkup
