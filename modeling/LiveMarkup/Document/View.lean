import LiveMarkup.Document.Attributes
import LiveMarkup.Markup.Print
/-!
# Looking at a tree

The nodes below a node in document order, and the markup and text that a node stands for.
-/

namespace LiveMarkup.Document

open Markup (Tree Tag)

/-- The nodes of a tree in document order, each with its depth, as many levels as `fuel`. -/
def outlineFrom (d : Document) : Nat → Nat → NodeId → List (Nat × NodeId)
  | 0, depth, n => [(depth, n)]
  | fuel + 1, depth, n => (depth, n) :: (d.children n).flatMap (outlineFrom d fuel (depth + 1))

/-- A node and all below it in document order, each with its depth. -/
def outline (d : Document) (n : NodeId) : List (Nat × NodeId) :=
  d.outlineFrom d.nodes.size 0 n

/-- The start tag of an element. -/
def tag? (d : Document) (n : NodeId) : Option Tag :=
  match d.kind n with
  | .element name space => some ⟨name, space, d.attributePairs n⟩
  | _ => none

/-- The markup of a node, as many levels as `fuel`. A fragment stands for its children. -/
def treesFrom (d : Document) : Nat → NodeId → List Tree
  | 0, _ => []
  | fuel + 1, n =>
    let below := (d.children n).flatMap (treesFrom d fuel)
    match d.kind n with
    | .element name space => [.element ⟨name, space, d.attributePairs n⟩ below]
    | .text => [.text (d.node n).data]
    | .comment => [.comment (d.node n).data]
    | .fragment => below

/-- The markup of a node. -/
def trees (d : Document) (n : NodeId) : List Tree :=
  d.treesFrom (d.nodes.size + 1) n

/-- The markup of the children of a node. -/
def content (d : Document) (n : NodeId) : List Tree :=
  (d.children n).flatMap d.trees

/-- Whether text directly inside a node is written as it is. -/
def isVerbatim (d : Document) (n : NodeId) : Bool :=
  (d.tag? n).any Tag.isVerbatim

/-- A node as markup. -/
def outerMarkup (d : Document) (n : NodeId) : String :=
  String.ofList (Markup.writeAll ((d.parent? n).any d.isVerbatim) (d.trees n))

/-- The content of a node as markup. -/
def innerMarkup (d : Document) (n : NodeId) : String :=
  String.ofList (Markup.writeAll (d.isVerbatim n) (d.content n))

/-- What a text or comment says, or all text below any other node. -/
def textContent (d : Document) (n : NodeId) : String :=
  match d.leaf? n with
  | some _ => (d.node n).data
  | none => Markup.textContentAll (d.content n)

end LiveMarkup.Document
