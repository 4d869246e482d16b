import LiveMarkup.Template.Marking
import LiveMarkup.Markup.Builder
/-!
# Compiled templates

The marked text of a template is read, and the markers are looked for in document order: a comment,
an attribute, or the whole text of a `style` or `textarea` element. The marker of hole `i` is looked
for until it is found, so markers behind one that got lost count as lost too. Marker attributes are
taken off the content; marker comments stay as placeholders.
-/

namespace LiveMarkup

open Markup (Tree Tag Namespace)

/-- Content to make instances from, and its holes in template order. -/
structure Compiled where
  content : List Tree
  holes : List Hole
deriving Repr, Inhabited

namespace Template

/-- A search for markers under way: the holes found, last one first, and how many have to be found.
-/
structure Search where
  expected : Nat
  found : List Hole
deriving Repr

namespace Search

/-- The marker that is looked for. -/
def wanted (search : Search) : String :=
  marker search.found.length

/-- Whether all holes have been found. -/
def isDone (search : Search) : Bool :=
  search.expected ≤ search.found.length

/-- Records the hole that is looked for. -/
def record (search : Search) (kind : HoleKind) (path : List Nat) : Search :=
  { search with found := ⟨kind, path⟩ :: search.found }

end Search

/-- Takes marker attributes off an element for as long as the wanted one is there. -/
def takeMarkers (path : List Nat) (attributes : List (String × String)) (search : Search) :
    List (String × String) × Search :=
  match _h : attributes.find? (·.1 == search.wanted) with
  | some found =>
    takeMarkers path (attributes.erase found) (search.record (.attr found.2) path)
  | none => (attributes, search)
termination_by attributes.length
decreasing_by
  have hmem := List.mem_of_find?_eq_some _h
  have := List.length_pos_of_mem hmem
  rw [List.length_erase_of_mem hmem]
  omega

/-- Whether the text of an element is nothing but the marker comment that is wanted. -/
def holdsTextMarker (tag : Tag) (children : List Tree) (search : Search) : Bool :=
  (Text.sameLetters tag.name.toList "style".toList
      || Text.sameLetters tag.name.toList "textarea".toList)
    && Text.trim (Markup.textContentAll children).toList
      == markerComment search.found.length

/-- Looks at the start tag of an element. -/
def searchTag (path : List Nat) (tag : Tag) (children : List Tree) (search : Search) :
    Tag × Search :=
  let taken := takeMarkers path tag.attributes search
  ({ tag with attributes := taken.1 },
    if holdsTextMarker tag children taken.2 then taken.2.record .text path else taken.2)

mutual

/-- Looks for markers in a tree, unless all have been found. `path` leads to the tree. -/
def searchTree (path : List Nat) (search : Search) : Tree → Tree × Search
  | .element tag children =>
    if search.isDone then (.element tag children, search)
    else
      let outer := searchTag path tag children search
      let inner := searchAll path 0 outer.2 children
      (.element outer.1 inner.1, inner.2)
  | .text data => (.text data, search)
  | .comment data =>
    (.comment data,
      if !search.isDone && data == search.wanted then search.record .child path else search)

/-- Looks for markers in the children from number `i` on of the node that `path` leads to. -/
def searchAll (path : List Nat) (i : Nat) (search : Search) : List Tree → List Tree × Search
  | [] => ([], search)
  | tree :: rest =>
    let first := searchTree (path ++ [i]) search tree
    let others := searchAll path (i + 1) first.2 rest
    (first.1 :: others.1, others.2)

end

/-- The outcome of compiling: the marked text, the content with its holes, and how many are
expected. -/
structure Compilation where
  markup : String
  compiled : Compiled
  expected : Nat
deriving Repr

/-- Reads a template and looks for its holes, whether it finds all of them or not. -/
def compilation (space : Namespace) (template : Template) : Compilation :=
  let markup := markHoles template.segments
  let result := searchAll [] 0 ⟨template.gaps, []⟩ (Markup.parse space markup)
  ⟨markup, ⟨result.1, result.2.found.reverse⟩, template.gaps⟩

/-- Whether enough holes have been found. -/
def Compilation.isComplete (c : Compilation) : Bool :=
  c.expected ≤ c.compiled.holes.length

/-- How many marker attributes have been taken off the content. -/
def Compilation.attributesTaken (c : Compilation) : Nat :=
  c.compiled.holes.countP fun hole => hole.kind matches .attr _

end Template

end LiveMarkup
