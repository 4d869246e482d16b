import LiveMarkup.Document.Attributes
import LiveMarkup.Document.Edit
import LiveMarkup.Markup.Builder
/-!
# Making nodes from markup and from nodes

`addContent` turns trees of markup into nodes, and `copyTree` copies a node with all below it.
Neither counts as a change, and neither touches a node that was there before, other than the one
that the new nodes are put into.
-/

namespace LiveMarkup.Document

open Markup (Tree Tag)

/-- Makes an element with its attributes. -/
def createElement (d : Document) (tag : Tag) : NodeId × Document :=
  let made := d.create (.element tag.name tag.space) ""
  (made.1, tag.attributes.foldl (fun d a => d.giveAttribute made.1 a.1 a.2) made.2)

/-- Makes an HTML element, whose name is in small letters. -/
def createHtmlElement (d : Document) (name : String) : NodeId × Document :=
  d.createElement ⟨Text.lowerString name, .html, []⟩

mutual

/-- Makes the nodes of a tree as last child of `p`. -/
def addTree (p : NodeId) (d : Document) : Tree → Document
  | .element tag children =>
    let made := d.createElement tag
    addContent made.1 (made.2.link p made.1) children
  | .text data =>
    let made := d.create .text data
    made.2.link p made.1
  | .comment data =>
    let made := d.create .comment data
    made.2.link p made.1

/-- Makes the nodes of some trees as last children of `p`. -/
def addContent (p : NodeId) (d : Document) : List Tree → Document
  | [] => d
  | tree :: rest => addContent p (addTree p d tree) rest

end

/-- Makes a fragment with some trees as its children. -/
def createFragment (d : Document) (content : List Tree) : NodeId × Document :=
  let made := d.create .fragment ""
  (made.1, addContent made.1 made.2 content)

/-- Reads markup into a fragment. -/
def parse (d : Document) (space : Markup.Namespace) (markup : String) : NodeId × Document :=
  d.createFragment (Markup.parse space markup)

/-- Makes a node like another one, with the same attributes, but without children. -/
def copy (d : Document) (n : NodeId) : NodeId × Document :=
  let made := d.create (d.kind n) (d.node n).data
  (made.1, (d.attributePairs n).foldl (fun d a => d.giveAttribute made.1 a.1 a.2) made.2)

/-- Copies a node with what is below it, as many levels as `fuel`. -/
def copyLevels : Nat → Document → NodeId → NodeId × Document
  | 0, d, n => d.copy n
  | fuel + 1, d, n =>
    let made := d.copy n
    (made.1, (d.children n).foldl (fun d c =>
      let child := copyLevels fuel d c
      child.2.link made.1 child.1) made.2)

/-- Copies a node with all below it. No node is deeper down than there are nodes. -/
def copyTree (d : Document) (n : NodeId) : NodeId × Document :=
  copyLevels d.nodes.size d n

end LiveMarkup.Document
