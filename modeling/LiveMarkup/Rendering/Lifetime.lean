import LiveMarkup.Rendering.Instance
/-!
# What is kept alive

A node lives as long as something holds it: the host, its parent, a property, or a cache. It does
not hold its parent. Nodes that hold each other in a circle live on for good, even if nothing else
holds them. When nothing holds a parent any more, its children that live on have none, and when
nothing holds an element, its attributes are on none. `Document.release` lets go of all that is not
held.
-/

namespace LiveMarkup

mutual

/-- The nodes that a value holds. -/
def Value.held : Value → List NodeId
  | .node n => [n]
  | .block block => block.held
  | .list items => heldByValues items
  | .invocation _ _ values => heldByValues values
  | _ => []

/-- The nodes that some values hold. -/
def heldByValues : List Value → List NodeId
  | [] => []
  | value :: rest => value.held ++ heldByValues rest

end

/-- The nodes that a binding holds. -/
def Binding.held : Binding → List NodeId
  | .child b =>
    b.placeholder :: b.text :: b.shown.elim [] Value.held ++ b.entries.flatMap Block.held
  | .cell element => [element]
  | .property element _ last => element :: last.elim [] Value.held
  | .event element _ _ => [element]
  | .attr element _ _ last => element :: last.elim [] Value.held
  | .text element last => element :: last.elim [] Value.held

/-- The nodes that an instance holds. -/
def Instance.held (i : Instance) : List NodeId :=
  i.block.held ++ i.bindings.flatMap Binding.held

mutual

/-- The nodes that a cache holds. -/
def Cache.held : Cache → List NodeId
  | ⟨instances, slots, root⟩ =>
    instances.flatMap Instance.held ++ heldBySlots slots ++ root.elim [] Block.held

/-- The nodes that some caches hold. -/
def heldBySlots : List Cache → List NodeId
  | [] => []
  | slot :: rest => slot.held ++ heldBySlots rest

end

/-- What is held from outside while something is rendered: some nodes, and by each container its
cache. -/
structure Custody where
  nodes : List NodeId
  containers : List (NodeId × Cache)
deriving Inhabited

/-- Holds some more nodes. -/
def Custody.holding (c : Custody) (nodes : List NodeId) : Custody :=
  { c with nodes := nodes ++ c.nodes }

/-- The cache of a container. -/
def Custody.cacheOf? (c : Custody) (n : NodeId) : Option Cache :=
  c.containers.lookup n

theorem count_false_setIfInBounds_lt {alive : Array Bool} {i : Nat} (h : alive[i]? = some false) :
    (alive.setIfInBounds i true).toList.count false < alive.toList.count false := by
  have hl : alive.toList[i]? = some false := by simpa using h
  obtain ⟨hi, hv⟩ := List.getElem?_eq_some_iff.1 hl
  have hpos : 0 < alive.toList.count false :=
    List.count_pos_iff.2 (hv ▸ List.getElem_mem hi)
  rw [Array.toList_setIfInBounds, List.count_set hi, hv, if_pos (by decide), if_neg (by decide)]
  omega

/-- Marks some nodes, and all that they hold in turn. -/
def mark (holds : NodeId → List NodeId) (alive : Array Bool) : List NodeId → Array Bool
  | [] => alive
  | n :: rest =>
    if _h : alive[n.index]? = some false then
      mark holds (alive.setIfInBounds n.index true) (holds n ++ rest)
    else mark holds alive rest
termination_by todo => (alive.toList.count false, todo.length)
decreasing_by
  · exact Prod.Lex.left _ _ (count_false_setIfInBounds_lt _h)
  · exact Prod.Lex.right _ (by simp)

namespace Document

/-- The nodes that a node holds beside its children: those in its properties, and those in its cache
if it is a container. -/
def heldAside (d : Document) (custody : Custody) (n : NodeId) : List NodeId :=
  (d.node n).properties.flatMap (fun p => p.2.held) ++ (custody.cacheOf? n).elim [] Cache.held

/-- The nodes that a node holds. -/
def heldByNode (d : Document) (custody : Custody) (n : NodeId) : List NodeId :=
  d.children n ++ d.heldAside custody n

/-- The nodes that are held from outside, and all that they hold in turn, one flag for each node.
Cells are held by the host. -/
def heldFromOutside (d : Document) (custody : Custody) : Array Bool :=
  mark (d.heldByNode custody) (Array.replicate d.nodes.size false)
    (custody.nodes ++ d.cells.map (·.2))

/-- Whether a node holds itself in turn by something that it holds beside its children. Children
alone never lead back to a node. -/
def holdsItself (d : Document) (custody : Custody) (n : NodeId) : Bool :=
  let aside := d.heldAside custody n
  let held := mark (d.heldByNode custody) (Array.replicate d.nodes.size false) aside
  !aside.isEmpty && held.getD n.index false

/-- The nodes that hold themselves, other than those flagged as held already. -/
def circular (d : Document) (custody : Custody) (held : Array Bool) : List NodeId :=
  ((List.range d.nodes.size).map NodeId.mk).filter fun n =>
    !held.getD n.index false && d.holdsItself custody n

/-- The nodes that are held from outside or in a circle, one flag for each node. -/
def alive (d : Document) (custody : Custody) : Array Bool :=
  let held := d.heldFromOutside custody
  mark (d.heldByNode custody) held (d.circular custody held)

/-- Lets go of the nodes that are not alive. -/
def keepOnly (d : Document) (alive : NodeId → Bool) : Document :=
  { d with
    nodes := d.nodes.mapIdx fun i r =>
      let r := { r with parent := r.parent.filter alive }
      if alive ⟨i⟩ then r else { r with children := [], attributes := [], properties := [] }
    attributes := d.attributes.map fun a => { a with owner := a.owner.filter alive } }

/-- Lets go of all nodes that are not held. -/
def release (d : Document) (custody : Custody) : Document :=
  let alive := d.alive custody
  d.keepOnly fun n => alive.getD n.index false

end Document

end LiveMarkup
