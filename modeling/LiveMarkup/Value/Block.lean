import LiveMarkup.Value.Identity
/-!
# Blocks

What an instance of a template comes to: a single node, or a group of sibling nodes that moves as
one. A group keeps the fragment that its nodes return to while they are not in use.
-/

namespace LiveMarkup

/-- Sibling nodes that belong together, and the fragment they return to. `serial` tells groups
apart. -/
structure Group where
  serial : Nat
  fragment : NodeId
  members : List NodeId
deriving DecidableEq, Repr, Inhabited

namespace Group

/-- The first node, or the fragment of a group without nodes. -/
def first (g : Group) : NodeId :=
  g.members.headD g.fragment

/-- The last node, or the fragment of a group without nodes. -/
def last (g : Group) : NodeId :=
  g.members.getLastD g.fragment

end Group

/-- A node or a group of nodes. -/
inductive Block where
  | single (node : NodeId)
  | group (group : Group)
deriving DecidableEq, Repr, Inhabited

namespace Block

/-- The nodes of a block, without the fragment. -/
def nodes : Block → List NodeId
  | single node => [node]
  | group g => g.members

/-- All nodes that a block keeps alive. -/
def held : Block → List NodeId
  | single node => [node]
  | group g => g.fragment :: g.members

end Block

end LiveMarkup
