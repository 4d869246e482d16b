import LiveMarkup.Document.Basic
/-!
# Moving nodes

The operations that change which nodes are children of which. A node has one place: putting it
somewhere takes it away from where it was. A fragment stands for its children and is empty
afterwards. Each operation counts as one change however many nodes it moves; one that is refused
leaves a notice.
-/

namespace LiveMarkup.Document

/-- A list with `n` put in front of `r`, or at the end if `r` is not in it. -/
def placeBefore (r n : NodeId) : List NodeId → List NodeId
  | [] => [n]
  | m :: rest => if m = r then n :: m :: rest else m :: placeBefore r n rest

/-- A list with `n` put in front of the reference, or at the end without one. -/
def place (reference : Option NodeId) (n : NodeId) (nodes : List NodeId) : List NodeId :=
  match reference with
  | none => nodes ++ [n]
  | some r => placeBefore r n nodes

/-- Takes a node away from its parent, if it has one. -/
def detach (d : Document) (n : NodeId) : Document :=
  match d.parent? n with
  | none => d
  | some p =>
    (d.update p fun r => { r with children := r.children.filter (· != n) }).update n
      fun r => { r with parent := none }

/-- Makes a node the last child of a node that has just been made, without counting it as a change.
-/
def link (d : Document) (p n : NodeId) : Document :=
  (d.update p fun r => { r with children := r.children ++ [n] }).update n
    fun r => { r with parent := some p }

/-- Puts a node into `p`, in front of the reference. -/
def attach (d : Document) (p n : NodeId) (reference : Option NodeId) : Document :=
  let d := d.detach n
  (d.update p fun r => { r with children := place reference n r.children }).update n
    fun r => { r with parent := some p }

/-- Puts a node that is no fragment into `p`, unless `p` cannot have it. A node that is its own
reference stays in front of what follows it. -/
def insertNode (d : Document) (p n : NodeId) (reference : Option NodeId) : Document :=
  match d.leaf? p with
  | some leaf => d.note (.insertionIntoLeaf leaf)
  | none =>
    if d.contains n p then d.note (.cycle (d.sketch n) (d.sketch p))
    else
      let reference := if reference = some n then d.nextSibling? n else reference
      match reference with
      | none => d.attach p n none
      | some r =>
        if d.parent? r = some p then d.attach p n (some r)
        else d.note (.foreignReference (d.sketch r) (d.sketch p))

/-- Puts some nodes into `p` one after another, in front of the same reference. -/
def insertEach (d : Document) (p : NodeId) (nodes : List NodeId) (reference : Option NodeId) :
    Document :=
  nodes.foldl (fun d n => d.insertNode p n reference) d

/-- Puts a node, or the children of a fragment, into `p` in front of the reference, or at the end
without one. -/
def insertBefore (d : Document) (p n : NodeId) (reference : Option NodeId) : Document :=
  let d := d.count
  if d.isFragment n then d.insertEach p (d.children n) reference else d.insertNode p n reference

/-- Puts a node, or the children of a fragment, at the end of `p`. -/
def append (d : Document) (p n : NodeId) : Document :=
  d.insertBefore p n none

/-- Takes a child away from `p`. -/
def removeChild (d : Document) (p c : NodeId) : Document :=
  if d.parent? c = some p then d.count.detach c else d.note (.notAChild (d.sketch c) (d.sketch p))

/-- A list with `n` in the place of `c`. -/
def substitute (c n : NodeId) (nodes : List NodeId) : List NodeId :=
  nodes.map fun m => if m = c then n else m

/-- Puts a node, or the children of a fragment, in the place of the child `c` of `p`. -/
def replaceChild (d : Document) (p n c : NodeId) : Document :=
  if d.parent? c = some p then
    if n = c then d
    else
      let d := d.count
      if d.isFragment n then (d.insertEach p (d.children n) (some c)).detach c
      else if d.contains n p then d.note (.replacementCycle (d.sketch n))
      else
        let d := d.detach n
        ((d.update p fun r => { r with children := substitute c n r.children }).update n
          fun r => { r with parent := some p }).update c fun r => { r with parent := none }
  else d.note (.replacedNotAChild (d.sketch c) (d.sketch p))

/-- Changes what a text or comment says. -/
def setData (d : Document) (n : NodeId) (data : String) : Document :=
  d.count.update n fun r => { r with data }

/-- Takes all children away from a node. -/
def clear (d : Document) (n : NodeId) : Document :=
  (d.children n).foldl detach d

/-- Makes a text the only content of a node; the empty text leaves no content. -/
def setText (d : Document) (n : NodeId) (text : String) : Document :=
  match d.leaf? n with
  | some _ => d.setData n text
  | none =>
    let d := d.count.clear n
    if text.isEmpty then d
    else
      let made := d.create .text text
      made.2.attach n made.1 none

end LiveMarkup.Document
