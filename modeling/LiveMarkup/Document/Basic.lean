import LiveMarkup.Document.Notice
/-!
# Documents

A document holds nodes and attributes by their identities. A node knows its parent and its children,
an attribute the element that it is on. Nodes are never taken out of a document; a node without
parent is simply not part of a larger tree. The document counts the changes made to it and keeps the
notices of what could not be done.
-/

namespace LiveMarkup

open Markup (Namespace Tag)

/-- What a node is. -/
inductive NodeKind where
  | element (name : String) (space : Namespace)
  | text
  | comment
  | fragment
deriving DecidableEq, Repr, Inhabited

/-- One node with its links. -/
structure Node where
  kind : NodeKind
  /-- What a text or comment says. -/
  data : String
  parent : Option NodeId
  children : List NodeId
  attributes : List AttributeId
  properties : List (String × Value)
  listeners : List (String × ListenerId)
deriving Inhabited

/-- A node that is linked to no other. -/
def Node.alone (kind : NodeKind) (data : String) : Node :=
  { kind, data, parent := none, children := [], attributes := [], properties := []
    listeners := [] }

/-- One attribute, and the element it is on. -/
structure Attribute where
  name : String
  value : String
  owner : Option NodeId
deriving Inhabited, DecidableEq, Repr

/-- All nodes and attributes that have been made. -/
structure Document where
  nodes : Array Node
  attributes : Array Attribute
  /-- How many groups have been made; the next one has this number. -/
  groups : Nat
  /-- The nodes in cells. -/
  cells : List (CellId × NodeId)
  /-- How many changes have been made. -/
  mutations : Nat
  /-- What could not be done, last one first. -/
  notices : List Notice
deriving Inhabited

namespace Document

/-- A document without nodes. -/
def empty : Document :=
  { nodes := #[], attributes := #[], groups := 0, cells := [], mutations := 0, notices := [] }

/-- The record of a node. -/
def node (d : Document) (n : NodeId) : Node :=
  d.nodes.getD n.index default

/-- The record of an attribute. -/
def attr (d : Document) (a : AttributeId) : Attribute :=
  d.attributes.getD a.index default

/-- What a node is. -/
def kind (d : Document) (n : NodeId) : NodeKind :=
  (d.node n).kind

/-- The node that a node is a child of. -/
def parent? (d : Document) (n : NodeId) : Option NodeId :=
  (d.node n).parent

/-- The children of a node, in order. -/
def children (d : Document) (n : NodeId) : List NodeId :=
  (d.node n).children

/-- Whether a node is an element. -/
def isElement (d : Document) (n : NodeId) : Bool :=
  d.kind n matches .element ..

/-- Whether a node is a fragment, whose children take its place wherever it is put. -/
def isFragment (d : Document) (n : NodeId) : Bool :=
  d.kind n == .fragment

/-- The kind of a node that cannot have children. -/
def leaf? (d : Document) (n : NodeId) : Option Leaf :=
  match d.kind n with
  | .text => some .text
  | .comment => some .comment
  | .element .. | .fragment => none

/-- The name of an element; all other nodes have the empty name. -/
def name (d : Document) (n : NodeId) : String :=
  match d.kind n with
  | .element name _ => name
  | _ => ""

/-- The first child. -/
def firstChild? (d : Document) (n : NodeId) : Option NodeId :=
  (d.children n).head?

/-- The last child. -/
def lastChild? (d : Document) (n : NodeId) : Option NodeId :=
  (d.children n).getLast?

/-- The child with a given number. -/
def child? (d : Document) (n : NodeId) (i : Nat) : Option NodeId :=
  (d.children n)[i]?

/-- What follows an item in a list. -/
def successor? (n : NodeId) : List NodeId → Option NodeId
  | [] => none
  | m :: rest => if m = n then rest.head? else successor? n rest

/-- The child of the same parent that follows a node. -/
def nextSibling? (d : Document) (n : NodeId) : Option NodeId := do
  successor? n (d.children (← d.parent? n))

/-- A node and its ancestors, as many as `fuel`. -/
def climb (d : Document) : Nat → NodeId → List NodeId
  | 0, _ => []
  | fuel + 1, n =>
    n :: match d.parent? n with
      | none => []
      | some p => climb d fuel p

/-- A node, its parent, and so on up to a node without parent. No chain of parents is longer than
there are nodes. -/
def lineage (d : Document) (n : NodeId) : List NodeId :=
  d.climb (d.nodes.size + 1) n

/-- Whether `m` is `n` or below it. -/
def contains (d : Document) (n m : NodeId) : Bool :=
  (d.lineage m).contains n

/-- What messages say about a node. -/
def sketch (d : Document) (n : NodeId) : Sketch :=
  match d.kind n with
  | .element name _ => .element name (d.children n).length
  | .text => .text (d.node n).data.utf8ByteSize
  | .comment => .comment (d.node n).data.utf8ByteSize
  | .fragment => .fragment (d.children n).length

/-- What messages say about an attribute. -/
def sketchAttribute (d : Document) (a : AttributeId) : AttributeSketch :=
  ⟨(d.attr a).name, (d.attr a).owner.isSome⟩

/-- Changes the record of a node. -/
def update (d : Document) (n : NodeId) (f : Node → Node) : Document :=
  { d with nodes := d.nodes.modify n.index f }

/-- Changes the record of an attribute. -/
def updateAttribute (d : Document) (a : AttributeId) (f : Attribute → Attribute) : Document :=
  { d with attributes := d.attributes.modify a.index f }

theorem node_update_self (d : Document) (n : NodeId) (f : Node → Node)
    (h : n.index < d.nodes.size) : (d.update n f).node n = f (d.node n) := by
  simp [update, node, Array.getD_eq_getD_getElem?, Array.getElem_modify, h]

theorem node_update_of_ne (d : Document) {n m : NodeId} (f : Node → Node) (h : m ≠ n) :
    (d.update n f).node m = d.node m := by
  have hi : n.index ≠ m.index := fun he => h (by cases m; cases n; cases he; rfl)
  simp [update, node, Array.getD_eq_getD_getElem?, Array.getElem?_modify, hi]

@[simp] theorem size_nodes_update (d : Document) (n : NodeId) (f : Node → Node) :
    (d.update n f).nodes.size = d.nodes.size := by
  simp [update]

@[simp] theorem attr_update (d : Document) (n : NodeId) (f : Node → Node) (a : AttributeId) :
    (d.update n f).attr a = d.attr a := rfl

@[simp] theorem node_updateAttribute (d : Document) (a : AttributeId) (f : Attribute → Attribute)
    (n : NodeId) : (d.updateAttribute a f).node n = d.node n := rfl

/-- Counts a change. -/
def count (d : Document) : Document :=
  { d with mutations := d.mutations + 1 }

/-- Notes down what could not be done. -/
def note (d : Document) (notice : Notice) : Document :=
  { d with notices := notice :: d.notices }

@[simp] theorem node_count (d : Document) (n : NodeId) : d.count.node n = d.node n := rfl

@[simp] theorem node_note (d : Document) (notice : Notice) (n : NodeId) :
    (d.note notice).node n = d.node n := rfl

/-- Makes a node on its own. -/
def create (d : Document) (kind : NodeKind) (data : String) : NodeId × Document :=
  (⟨d.nodes.size⟩, { d with nodes := d.nodes.push (Node.alone kind data) })

/-- The node in a cell. -/
def cell? (d : Document) (c : CellId) : Option NodeId :=
  d.cells.lookup c

/-- Puts a node into a cell, in place of the one before. -/
def setCell (d : Document) (c : CellId) (n : NodeId) : Document :=
  { d with cells := (c, n) :: d.cells.filter (·.1 != c) }

end Document

end LiveMarkup
