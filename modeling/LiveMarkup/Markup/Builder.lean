import LiveMarkup.Markup.Token
import LiveMarkup.Markup.Vocabulary
/-!
# Reading markup

The tokens of a text are put together into trees. A `Builder` holds the elements that are still
open, innermost first, each with what came before it. An end tag closes the innermost open element
of its name with all that is open inside, and is skipped if there is none; at the end of the text
everything is closed. No tag is implied by another.
-/

namespace LiveMarkup.Markup

/-- Attributes without those whose name has occurred before. -/
def firstOfEachName (attributes : List (String × String)) : List (String × String) :=
  attributes.foldl (fun kept a => if kept.any (·.1 == a.1) then kept else kept ++ [a]) []

namespace Tag

/-- The spelling that names have in a namespace: HTML names are in small letters. -/
def spelling (space : Namespace) (name : List Char) : String :=
  match space with
  | .html => String.ofList (Text.lower name)
  | .svg => String.ofList name

/-- The namespace of an element inside content of a given namespace: `svg` starts the other one. -/
def spaceOf (outer : Namespace) (name : List Char) : Namespace :=
  if Text.sameLetters name ['s', 'v', 'g'] then .svg else outer

/-- The tag that a start tag stands for inside content of a given namespace. -/
def ofStart (outer : Namespace) (name : List Char)
    (attributes : List (List Char × List Char)) : Tag :=
  let space := spaceOf outer name
  { name := spelling space name
    space := space
    attributes := firstOfEachName <|
      attributes.map fun a => (spelling space a.1, String.ofList a.2) }

end Tag

/-- An element that is still open, with the trees in front of it, last one first. -/
structure Frame where
  tag : Tag
  before : List Tree
deriving Repr

/-- Markup that has been read in part: the open elements, innermost first, and the content of the
innermost one, last tree first. Outside of all elements `outer` is the namespace. -/
structure Builder where
  outer : Namespace
  frames : List Frame
  content : List Tree
deriving Repr

namespace Builder

/-- Nothing has been read yet. -/
def empty (outer : Namespace) : Builder :=
  { outer, frames := [], content := [] }

/-- The namespace of what is read next. -/
def space (b : Builder) : Namespace :=
  match b.frames with
  | [] => b.outer
  | frame :: _ => frame.tag.contentSpace

/-- Adds a tree behind the content read so far. -/
def add (b : Builder) (tree : Tree) : Builder :=
  { b with content := tree :: b.content }

/-- Adds text, which continues the text in front of it. -/
def addText (b : Builder) (s : List Char) : Builder :=
  if s.isEmpty then b
  else
    match b.content with
    | .text data :: before => { b with content := .text (data ++ String.ofList s) :: before }
    | content => { b with content := .text (String.ofList s) :: content }

/-- Opens an element. -/
def push (b : Builder) (tag : Tag) : Builder :=
  { b with frames := { tag, before := b.content } :: b.frames, content := [] }

/-- Closes the innermost open element. -/
def pop (b : Builder) : Builder :=
  match b.frames with
  | [] => b
  | frame :: frames =>
    { b with frames, content := .element frame.tag b.content.reverse :: frame.before }

/-- Closes the innermost open elements, as many as given. -/
def popMany : Nat → Builder → Builder
  | 0, b => b
  | n + 1, b => popMany n b.pop

/-- Closes the innermost open element of a name, in letters of any case, and all inside it. -/
def close (b : Builder) (name : List Char) : Builder :=
  match b.frames.findIdx? fun frame => Text.sameLetters frame.tag.name.toList name with
  | some i => popMany (i + 1) b
  | none => b

/-- Opens the element of a start tag, or adds it whole if it cannot have content. -/
def start (b : Builder) (tag : Tag) (closed : Bool) : Builder :=
  if tag.isVoid || (tag.space == .svg && closed) then b.add (.element tag []) else b.push tag

/-- Takes in the content of a raw text element that has just been opened, and leaves the rest. -/
def takeRawText (b : Builder) (tag : Tag) (s : List Char) : Builder × List Char :=
  match tag.rawText? with
  | none => (b, s)
  | some kind =>
    let cut := Token.rawText tag.name.toList s
    (b.addText (if kind = .decoded then Reference.decode cut.1 else cut.1), cut.2)

theorem length_takeRawText_le (b : Builder) (tag : Tag) (s : List Char) :
    (b.takeRawText tag s).2.length ≤ s.length := by
  unfold takeRawText
  split
  · exact Nat.le_refl _
  · exact Token.length_rawText_le _ _

/-- Takes in a token, and with a start tag also the raw text behind it; leaves the rest. -/
def accept (b : Builder) (token : Token) (rest : List Char) : Builder × List Char :=
  match token with
  | .startTag name attributes closed =>
    let tag := Tag.ofStart b.space name attributes
    (b.start tag closed).takeRawText tag rest
  | .endTag name => (b.close name, rest)
  | .comment data => (b.add (.comment (String.ofList data)), rest)
  | .text data => (b.addText (Reference.decode data), rest)

theorem length_accept_le (b : Builder) (token : Token) (rest : List Char) :
    (b.accept token rest).2.length ≤ rest.length := by
  cases token with
  | startTag name attributes closed => exact length_takeRawText_le _ _ _
  | endTag | comment | text => exact Nat.le_refl _

/-- Takes in a whole text. -/
def run (b : Builder) : List Char → Builder
  | [] => b
  | c :: rest =>
    let token := Token.next c rest
    let taken := b.accept token.1 token.2
    taken.1.run taken.2
termination_by s => s.length
decreasing_by
  exact Nat.lt_of_le_of_lt (length_accept_le _ _ _) (Token.length_next_lt _ _)

/-- The trees read, when everything that is open has been closed. -/
def finish (b : Builder) : List Tree :=
  (popMany b.frames.length b).content.reverse

end Builder

/-- Reads a text as content of a namespace. -/
def parse (space : Namespace) (s : String) : List Tree :=
  ((Builder.empty space).run s.toList).finish

end LiveMarkup.Markup
