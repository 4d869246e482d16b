import LiveMarkup.Document.Edit
/-!
# Moving blocks

A single node is moved like any node. A group is collected into its fragment before it is inserted,
so that inserting the fragment moves the whole group with everything that stands between its first
and last node. To be removed, all but its first node are collected, and the caller removes that one.
-/

namespace LiveMarkup

/-- What the node of an entry is wanted for. -/
inductive Access where
  /-- To insert something in front of the entry. -/
  | first
  /-- To find what follows the entry. -/
  | last
  /-- To insert the entry. -/
  | insert
  /-- To remove the entry. -/
  | remove
deriving DecidableEq, Repr

namespace Document

/-- Some nodes up to and including `last`. -/
def runTo (last : NodeId) : List NodeId → List NodeId
  | [] => []
  | n :: rest => if n = last then [n] else n :: runTo last rest

/-- Some nodes from `first` on. -/
def runFrom (first : NodeId) (nodes : List NodeId) : List NodeId :=
  nodes.dropWhile (· != first)

/-- Moves the nodes of an attached group behind its first one into its fragment, with all that
stands between them. The first node is left where it is. -/
def collectTail (d : Document) (g : Group) : Document :=
  if g.members.length < 2 then d
  else if d.parent? g.first = some g.fragment then d.note .groupNotAttached
  else
    match d.parent? g.first with
    | none => d
    | some p =>
      if d.parent? g.last = some p then
        (runTo g.last (runFrom g.first (d.children p)).tail).foldl
          (fun d n => d.append g.fragment n) d
      else d

/-- The nodes of a group that are not in its fragment: all from the first to the last one, or the
first one alone if the others are elsewhere. -/
def loose (d : Document) (g : Group) : List NodeId :=
  match d.parent? g.first with
  | none => [g.first]
  | some p =>
    if p = g.fragment then []
    else if d.parent? g.last = some p then runTo g.last (runFrom g.first (d.children p))
    else [g.first]

/-- Moves all nodes of a group into its fragment, with all that stands between them. -/
def collect (d : Document) (g : Group) : Document :=
  if g.members.isEmpty then d
  else
    let anchor := d.firstChild? g.fragment
    (d.loose g).foldl (fun d n => d.insertBefore g.fragment n anchor) d

/-- The node of a block for a purpose, and the document made ready for it. -/
def access (d : Document) (block : Block) (access : Access) : NodeId × Document :=
  match block with
  | .single n => (n, d)
  | .group g =>
    match access with
    | .first => (g.first, d)
    | .last => (g.last, d)
    | .insert => (g.fragment, d.collect g)
    | .remove => (g.first, d.collectTail g)

/-- The block that the children of a fragment make up: an only child is a single node, all else a
group. -/
def blockOf (d : Document) (fragment : NodeId) : Block × Document :=
  match d.children fragment with
  | [only] => (.single only, d)
  | members => (.group ⟨d.groups, fragment, members⟩, { d with groups := d.groups + 1 })

/-- The block of a fragment that nothing else knows of. If the block is a single node, nothing keeps
the fragment, and the node is without parent. -/
def blockOfOwn (d : Document) (fragment : NodeId) : Block × Document :=
  let made := d.blockOf fragment
  match made.1 with
  | .single n => (made.1, made.2.detach n)
  | .group _ => made

end Document

end LiveMarkup
