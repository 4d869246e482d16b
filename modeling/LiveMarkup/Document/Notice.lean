import LiveMarkup.Text.Quoted
import LiveMarkup.Value.Basic
/-!
# Notices

A document never fails: what cannot be done is left undone and noted down. A notice records its
cause, with a sketch of the nodes involved as they were at that moment; `Notice.message` words it.
-/

namespace LiveMarkup

/-- What a message says about a node: its name and number of children, or the size of its data. -/
inductive Sketch where
  | element (name : String) (children : Nat)
  | text (bytes : Nat)
  | comment (bytes : Nat)
  | fragment (children : Nat)
deriving DecidableEq, Repr

/-- A sketch in words. -/
def Sketch.describe : Sketch → String
  | element name children => "<" ++ name ++ "> (" ++ toString children ++ " child(ren))"
  | text bytes => "Text(<" ++ toString bytes ++ " byte(s)>)"
  | comment bytes => "Comment(<" ++ toString bytes ++ " byte(s)>)"
  | fragment children => "Fragment (" ++ toString children ++ " child(ren))"

/-- What a message says about an attribute: its name, and whether it is on an element. -/
structure AttributeSketch where
  name : String
  attached : Bool
deriving DecidableEq, Repr

/-- An attribute in words. -/
def AttributeSketch.describe (a : AttributeSketch) : String :=
  "Attr \x7b name: " ++ Text.quoted a.name ++ ", attached: "
    ++ (if a.attached then "true" else "false") ++ " \x7d"

/-- The kinds of node that have no children. -/
inductive Leaf where
  | text
  | comment
deriving DecidableEq, Repr

/-- Something that could not be done. -/
inductive Notice where
  | insertionIntoLeaf (leaf : Leaf)
  | cycle (node container : Sketch)
  | foreignReference (reference container : Sketch)
  | notAChild (node container : Sketch)
  | replacedNotAChild (node container : Sketch)
  | replacementCycle (node : Sketch)
  | attributeOnNonElement (node : Sketch)
  | attributeInUse (a : AttributeSketch) (owner : Sketch)
  | attributeNotSet (a : AttributeSketch)
  | groupNotAttached
  | placeholderDetached
  | cellExpected (found : Shape)
  | listenerExpected (event : String) (found : Shape)
  | noAttributeText (found : Shape)
  | noContentText (found : Shape)
  | mixedList
  | skippedItem (found : Shape)
deriving DecidableEq, Repr

namespace Notice

/-- Whether a notice reports a refused operation, and not merely a value of an unusable sort. -/
def isError : Notice → Bool
  | cellExpected _ | listenerExpected .. | noAttributeText _ | noContentText _ | mixedList
  | skippedItem _ => false
  | _ => true

/-- The text of a notice. -/
def message : Notice → String
  | insertionIntoLeaf .text => "Tried to insert into a Text node."
  | insertionIntoLeaf .comment => "Tried to insert into a Comment node."
  | cycle node container =>
    "Inserting " ++ node.describe ++ " into " ++ container.describe ++ " would create a cycle."
  | foreignReference reference container =>
    "Insertion reference " ++ reference.describe ++ " isn't a child of " ++ container.describe
      ++ "."
  | notAChild node container => node.describe ++ " isn't a child of " ++ container.describe ++ "."
  | replacedNotAChild node container =>
    "Replaced " ++ node.describe ++ " isn't a child of " ++ container.describe ++ "."
  | replacementCycle node => "Replacing with " ++ node.describe ++ " would create a cycle."
  | attributeOnNonElement node => "Tried to set an attribute on " ++ node.describe ++ "."
  | attributeInUse a owner => a.describe ++ " is already in use on " ++ owner.describe ++ "."
  | attributeNotSet a => a.describe ++ " isn't set on this element."
  | groupNotAttached => "Tried to detach a group that isn't attached."
  | placeholderDetached => "Placeholder of a child content hole is detached."
  | cellExpected found => "Expected a `NodeRef` for `ref`, found " ++ found.name ++ "."
  | listenerExpected event found =>
    "Expected a listener for `on" ++ event ++ "`, found " ++ found.name
      ++ ". Keeping the current one."
  | noAttributeText found => "Can't use " ++ found.name ++ " as attribute value."
  | noContentText found => "Can't use " ++ found.name ++ " as text content."
  | mixedList => "Can't join a list that starts with a primitive but contains non-primitives."
  | skippedItem found => "Skipping list item of shape " ++ found.name ++ " in child content."

/-- The text of a notice with its weight in front. -/
def line (notice : Notice) : String :=
  (if notice.isError then "ERROR: " else "WARN: ") ++ notice.message

end Notice

end LiveMarkup
