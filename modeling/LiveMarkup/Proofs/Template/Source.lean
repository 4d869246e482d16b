import LiveMarkup.Template.Compiled
import Mathlib.Algebra.GroupWithZero.Nat
/-!
# Templates as they are written

The abstract syntax of templates: text, comments, elements and holes, where an attribute may have a hole
as its value and a `style` or `textarea` element one as its content (`Source`). Text and attribute values
are kept as they are written, with references. `Source.cut` writes a node down with a gap at each hole,
and the segments of a template are what is between the gaps (`ofSource`).

What compiling a template should give is read off the syntax as well: the holes with their paths
(`Source.holes`) and the content with a placeholder for each hole between tags (`Source.content`).
-/

namespace LiveMarkup.Template

open Markup (Tree Tag voidNames)
open Markup.Reference (decode)

/-- How an attribute is written that has a hole as its value. -/
inductive Quoting where
  | bare
  | double
  | single
deriving DecidableEq, Repr

/-- The quote, if there is one. -/
def Quoting.mark? : Quoting → Option Char
  | bare => none
  | double => some '"'
  | single => some '\x27'

/-- An attribute in a template. -/
inductive Attribute where
  | fixed (name written : List Char)
  | hole (name : List Char) (quoting : Quoting)
deriving DecidableEq, Repr

/-- One node of a template with everything below it. -/
inductive Source where
  | text (written : List Char)
  | comment (data : List Char)
  | hole
  | element (name : List Char) (attributes : List Attribute) (children : List Source)
  /-- A `style` or `textarea` element, with a text or a hole as its content. -/
  | raw (name : List Char) (attributes : List Attribute) (content : Option (List Char))

/-- Induction over nodes and lists of nodes. -/
theorem Source.induct {motive : Source → Prop} {motives : List Source → Prop}
    (text : ∀ written, motive (.text written)) (comment : ∀ data, motive (.comment data))
    (hole : motive .hole)
    (element : ∀ name attributes children, motives children →
      motive (.element name attributes children))
    (raw : ∀ name attributes content, motive (.raw name attributes content))
    (nil : motives []) (cons : ∀ node rest, motive node → motives rest → motives (node :: rest)) :
    (∀ node, motive node) ∧ ∀ nodes, motives nodes :=
  ⟨@Source.rec motive motives text comment hole element raw nil cons,
    @Source.rec_1 motive motives text comment hole element raw nil cons⟩

/-! ### Writing templates down -/

/-- Text without gaps. -/
def plain (s : List Char) : List (Option Char) :=
  s.map some

/-- What is in front of the gaps, between them and behind them; `front` comes before it. -/
def segmentsFrom (front : List Char) : List (Option Char) → List (List Char)
  | [] => [front]
  | none :: rest => front :: segmentsFrom [] rest
  | some c :: rest => segmentsFrom (front ++ [c]) rest

/-- Whether an element of a name has no content. -/
def isVoidName (name : List Char) : Bool :=
  voidNames.contains (String.ofList name)

/-- An end tag. -/
def endTag (name : List Char) : List Char :=
  '<' :: '/' :: name ++ ['>']

/-- A comment. -/
def commentOf (data : List Char) : List Char :=
  ['<', '!', '-', '-'] ++ data ++ ['-', '-', '>']

/-- An attribute with its value between quotes, and a blank in front. -/
def quoted (name : List Char) (quote : Char) (value : List Char) : List Char :=
  ' ' :: name ++ ['=', quote] ++ value ++ [quote]

namespace Attribute

/-- An attribute as it is written. -/
def cut : Attribute → List (Option Char)
  | fixed name written => plain (quoted name '"' written)
  | hole name quoting =>
    plain (' ' :: name ++ '=' :: quoting.mark?.toList) ++ none :: plain quoting.mark?.toList

/-- How many holes an attribute has. -/
def gaps : Attribute → Nat
  | fixed .. => 0
  | hole .. => 1

/-- An attribute without hole, as it is read. -/
def fixed? : Attribute → Option (String × String)
  | fixed name written => some (String.ofList name, String.ofList (decode written))
  | hole .. => none

/-- The hole of an attribute of the element that a path leads to. -/
def hole? (path : List Nat) : Attribute → Option Hole
  | fixed .. => none
  | hole name _ => some ⟨.attr (String.ofList name), path⟩

end Attribute

/-- How many holes there are in some attributes. -/
def gapsIn (attributes : List Attribute) : Nat :=
  (attributes.map Attribute.gaps).sum

/-- The beginning of a start tag with its attributes. -/
def cutTag (name : List Char) (attributes : List Attribute) : List (Option Char) :=
  plain ('<' :: name) ++ attributes.flatMap Attribute.cut ++ plain ['>']

/-- The tag of an element that is left when the markers of its holes have been taken off. -/
def tagOf (name : List Char) (attributes : List Attribute) : Tag :=
  ⟨String.ofList name, .html, attributes.filterMap Attribute.fixed?⟩

/-- The content of an element that holds text or nothing. -/
def textOf (s : List Char) : List Tree :=
  if s.isEmpty then [] else [.text (String.ofList s)]

mutual

/-- A node as it is written. -/
def Source.cut : Source → List (Option Char)
  | .text written => plain written
  | .comment data => plain (commentOf data)
  | .hole => [none]
  | .element name attributes children =>
    cutTag name attributes
      ++ if isVoidName name then [] else cutAll children ++ plain (endTag name)
  | .raw name attributes none => cutTag name attributes ++ none :: plain (endTag name)
  | .raw name attributes (some s) => cutTag name attributes ++ plain s ++ plain (endTag name)

/-- Some nodes as they are written. -/
def cutAll : List Source → List (Option Char)
  | [] => []
  | node :: rest => node.cut ++ cutAll rest

end

mutual

/-- How many holes a node has. -/
def Source.gaps : Source → Nat
  | .text _ => 0
  | .comment _ => 0
  | .hole => 1
  | .element _ attributes children => gapsIn attributes + gapsAll children
  | .raw _ attributes none => gapsIn attributes + 1
  | .raw _ attributes (some _) => gapsIn attributes

/-- How many holes some nodes have. -/
def gapsAll : List Source → Nat
  | [] => 0
  | node :: rest => node.gaps + gapsAll rest

end

/-- The template with a number that some nodes make. -/
def ofSource (id : Nat) (nodes : List Source) : Template :=
  ⟨id, (segmentsFrom [] (cutAll nodes)).map String.ofList⟩

/-! ### What compiling should give -/

mutual

/-- The content of a node whose first hole has a number. -/
def Source.content (i : Nat) : Source → Tree
  | .text written => .text (String.ofList (decode written))
  | .comment data => .comment (String.ofList data)
  | .hole => .comment (marker i)
  | .element name attributes children =>
    .element (tagOf name attributes) (contentAll (i + gapsIn attributes) children)
  | .raw name attributes none =>
    .element (tagOf name attributes) (textOf (markerComment (i + gapsIn attributes)))
  | .raw name attributes (some s) => .element (tagOf name attributes) (textOf s)

/-- The content of some nodes the first hole of which has a number. -/
def contentAll (i : Nat) : List Source → List Tree
  | [] => []
  | node :: rest => node.content i :: contentAll (i + node.gaps) rest

end

mutual

/-- The holes of the node that a path leads to. -/
def Source.holes (path : List Nat) : Source → List Hole
  | .text _ => []
  | .comment _ => []
  | .hole => [⟨.child, path⟩]
  | .element _ attributes children =>
    attributes.filterMap (Attribute.hole? path) ++ holesAll path 0 children
  | .raw _ attributes none => attributes.filterMap (Attribute.hole? path) ++ [⟨.text, path⟩]
  | .raw _ attributes (some _) => attributes.filterMap (Attribute.hole? path)

/-- The holes of the children from number `k` on of the node that a path leads to. -/
def holesAll (path : List Nat) (k : Nat) : List Source → List Hole
  | [] => []
  | node :: rest => node.holes (path ++ [k]) ++ holesAll path (k + 1) rest

end

/-! ### Well-formed templates -/

/-- Text without brackets. -/
def IsBare (s : List Char) : Prop :=
  ∀ c ∈ s, c ≠ '<' ∧ c ≠ '>'

/-- Whether a character may stand in the name of an attribute. -/
def isNamePart (c : Char) : Bool :=
  isHoleNamePart c && c != '<' && c != '&' && c != '/'

/-- The name of an attribute. -/
structure IsAttributeName (name : List Char) : Prop where
  nonempty : name ≠ []
  parts : ∀ c ∈ name, isNamePart c = true

/-- The name of an element: a small letter, then small letters, digits or hyphens. -/
structure IsElementName (name : List Char) : Prop where
  head : name.head?.any Char.isLower = true
  parts : ∀ c ∈ name, c.isLower = true ∨ c.isDigit = true ∨ c = '-'

instance (s : List Char) : Decidable (IsBare s) :=
  decidable_of_iff ((s.all fun c => c != '<' && c != '>') = true) (by simp [IsBare])

instance (name : List Char) : Decidable (IsAttributeName name) :=
  decidable_of_iff (name ≠ [] ∧ name.all isNamePart = true)
    ⟨fun h => ⟨h.1, List.all_eq_true.1 h.2⟩, fun h => ⟨h.nonempty, List.all_eq_true.2 h.parts⟩⟩

instance (name : List Char) : Decidable (IsElementName name) :=
  decidable_of_iff (name.head?.any Char.isLower = true ∧
      (name.all fun c => c.isLower || c.isDigit || c == '-') = true)
    ⟨fun h => ⟨h.1, by simpa [or_assoc] using h.2⟩, fun h => ⟨h.head, by simpa [or_assoc] using h.parts⟩⟩

/-- An attribute as it should be: a name in small letters that is no marker, and a value without
brackets and quotes; or any name if there is a hole behind it. -/
def Attribute.IsWellFormed : Attribute → Prop
  | fixed name written =>
    IsAttributeName name ∧ Text.lower name = name ∧ (∀ i, name ≠ (marker i).toList) ∧
      IsBare written ∧ '"' ∉ written
  | hole name _ => IsAttributeName name

/-- Attributes as they should be, no two of them with one name and without holes. -/
structure AreWellFormed (attributes : List Attribute) : Prop where
  each : ∀ a ∈ attributes, a.IsWellFormed
  nodup : ((attributes.filterMap Attribute.fixed?).map Prod.fst).Nodup

/-- Whether a node is text. -/
def Source.isText : Source → Bool
  | .text _ => true
  | _ => false

mutual

/-- A node as it should be. -/
def Source.IsWellFormed : Source → Prop
  | .text written => written ≠ [] ∧ IsBare written
  | .comment data => IsBare data ∧ ∀ i, data ≠ (marker i).toList
  | .hole => True
  | .element name attributes children =>
    IsElementName name ∧
      name ∉ ["svg".toList, "script".toList, "xmp".toList, "title".toList, "style".toList,
        "textarea".toList] ∧
      AreWellFormed attributes ∧ (isVoidName name = true → children = []) ∧ AreAllWellFormed children
  | .raw name attributes content =>
    name ∈ ["style".toList, "textarea".toList] ∧ AreWellFormed attributes ∧
      ∀ s, content = some s → IsBare s ∧ '&' ∉ s

/-- Some nodes as they should be, no two of them next to each other both text. -/
def AreAllWellFormed : List Source → Prop
  | [] => True
  | node :: rest =>
    node.IsWellFormed ∧ (node.isText = true → rest.head?.any Source.isText = false) ∧
      AreAllWellFormed rest

end

/-- A template as it should be: it neither begins nor ends with a blank. -/
structure AreTemplate (nodes : List Source) : Prop where
  wellFormed : AreAllWellFormed nodes
  front : ∀ written, nodes.head? = some (.text written) → written.head?.any Text.isBlank = false
  back : ∀ written, nodes.getLast? = some (.text written) → written.getLast?.any Text.isBlank = false

end LiveMarkup.Template
