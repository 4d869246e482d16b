import LiveMarkup.Document.Basic
/-!
# Finding the way in a tree

A node below a root is reached by the numbers of the children on the way down: `pathTo` finds them
and `descend?` follows them. Document order needs no such list: the next node is found from the one
before by looking at first children, next siblings and parents alone, and the tree below the root is
never left.
-/

namespace LiveMarkup.Document

/-- The child indices on the way up from a node, last one first, as many as `fuel`. -/
def pathUp (d : Document) (root : NodeId) : Nat → NodeId → List Nat
  | 0, _ => []
  | fuel + 1, n =>
    if n = root then []
    else
      match d.parent? n with
      | none => []
      | some p => (d.children p).idxOf n :: pathUp d root fuel p

/-- The child indices that lead from a root down to a node below it. -/
def pathTo (d : Document) (root n : NodeId) : List Nat :=
  (d.pathUp root (d.nodes.size + 1) n).reverse

/-- The node that some child indices lead to. -/
def descend? (d : Document) (root : NodeId) (path : List Nat) : Option NodeId :=
  path.foldlM d.child? root

/-- The next sibling of a node, or of the closest node above it that has one. The root is not left,
and no more than `fuel` nodes are looked at. -/
def behindFrom? (d : Document) (root : NodeId) : Nat → NodeId → Option NodeId
  | 0, _ => none
  | fuel + 1, n =>
    if n = root then none
    else
      match d.nextSibling? n with
      | some m => some m
      | none =>
        match d.parent? n with
        | some p => behindFrom? d root fuel p
        | none => none

/-- The first node in document order that follows a node and all below it. -/
def behind? (d : Document) (root n : NodeId) : Option NodeId :=
  d.behindFrom? root (d.nodes.size + 1) n

/-- The next node in document order. -/
def next? (d : Document) (root n : NodeId) : Option NodeId :=
  (d.firstChild? n).or (d.behind? root n)

/-- Whether a node is an element or a comment, the nodes at which a hole may be marked. -/
def isMarkable (d : Document) (n : NodeId) : Bool :=
  match d.kind n with
  | .element .. | .comment => true
  | .text | .fragment => false

/-- The next element or comment in document order, looking at no more than `fuel` nodes. -/
def nextMarkableFrom? (d : Document) (root : NodeId) : Nat → NodeId → Option NodeId
  | 0, _ => none
  | fuel + 1, n =>
    match d.next? root n with
    | none => none
    | some m => if d.isMarkable m then some m else nextMarkableFrom? d root fuel m

/-- The next element or comment in document order. -/
def nextMarkable? (d : Document) (root n : NodeId) : Option NodeId :=
  d.nextMarkableFrom? root (d.nodes.size + 1) n

end LiveMarkup.Document
