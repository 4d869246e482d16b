/-!
# Markup trees

A piece of markup is a list of trees: elements, text and comments. Elements belong to one of two
namespaces, which decides how their names are spelled and how they may be closed.
-/

namespace LiveMarkup.Markup

/-- The rules under which markup is read: those of HTML, or those inside an `svg` element. -/
inductive Namespace where
  | html
  | svg
deriving DecidableEq, Repr, Inhabited

/-- What a start tag says: the element's name, its namespace, and its attributes in order. -/
structure Tag where
  name : String
  space : Namespace
  attributes : List (String × String)
deriving DecidableEq, Repr, Inhabited

/-- One node of markup with everything below it. -/
inductive Tree where
  | element (tag : Tag) (children : List Tree)
  | text (data : String)
  | comment (data : String)
deriving Repr, Inhabited, BEq

/-- Induction over trees and lists of trees. -/
theorem Tree.induct {motive : Tree → Prop} {motives : List Tree → Prop}
    (element : ∀ tag children, motives children → motive (.element tag children))
    (text : ∀ data, motive (.text data)) (comment : ∀ data, motive (.comment data))
    (nil : motives []) (cons : ∀ t ts, motive t → motives ts → motives (t :: ts)) :
    (∀ t, motive t) ∧ ∀ ts, motives ts :=
  ⟨@Tree.rec motive motives element text comment nil cons,
    @Tree.rec_1 motive motives element text comment nil cons⟩

mutual

/-- The data of all text below a tree, in order. Comments are skipped. -/
def Tree.textContent : Tree → String
  | .element _ children => textContentAll children
  | .text data => data
  | .comment _ => ""

/-- The data of all text in a list of trees, in order. -/
def textContentAll : List Tree → String
  | [] => ""
  | tree :: rest => tree.textContent ++ textContentAll rest

end

/-- The children of a tree; only elements have any. -/
def Tree.children : Tree → List Tree
  | .element _ children => children
  | .text _ => []
  | .comment _ => []

end LiveMarkup.Markup
