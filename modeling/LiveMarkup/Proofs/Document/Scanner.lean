import LiveMarkup.Document.Build
import LiveMarkup.Proofs.Markup.Offsets
/-!
# Reading markup in place

Reading keeps a byte position and the nodes that are still open, and puts what it has read into the document at
once. Every look at the text cuts it at the position or at some distance from it. Where that is inside of a
character, where nothing is open to put a node into, and where a loop does not get on, there is no result. That
all this never happens, and that the document comes to what `Document.parse` makes, is shown elsewhere.
-/

namespace LiveMarkup

open Markup (Namespace Tag RawText rawTextNames voidNames)
open Markup.Reference (decodeBytes?)
open Markup.Token (findEndTag? isAttributeNamePart isBareValuePart isTagNamePart)
open String (utf8Len)
open Text (findChar? findMark? from? isLetter sameLetters trimStart upTo?)

/-- How far the reading of a text into a document has come. -/
structure Scanner where
  document : Document
  /-- The number of bytes read. -/
  position : Nat
  /-- The nodes that are open, with the namespaces of their content: a fragment, and the elements inside of it,
  innermost last. -/
  stack : List (NodeId × Namespace)

/-- What a pass through the attributes of a start tag comes to. -/
inductive Scanner.Turn where
  /-- The tag has ended, with a slash in front of its bracket or without. -/
  | leave (closed : Bool) (r : Scanner)
  | stay (r : Scanner)

namespace Scanner

/-- Nothing has been read yet. -/
def start (d : Document) (space : Namespace) : Scanner :=
  let made := d.create .fragment ""
  { document := made.2, position := 0, stack := [(made.1, space)] }

/-- Puts a new node into the innermost open one. -/
def append (r : Scanner) (made : NodeId × Document) : Option Scanner := do
  let parent ← r.stack.getLast?
  pure { r with document := made.2.link parent.1 made.1 }

/-- Puts text into the innermost open node, where it continues the text in front of it. -/
def appendText (r : Scanner) (data : List Char) : Option Scanner :=
  if data.isEmpty then pure r
  else do
    let parent ← r.stack.getLast?
    match (r.document.lastChild? parent.1).filter (r.document.kind · = .text) with
    | some last =>
      pure { r with
        document := r.document.update last fun n => { n with data := n.data ++ String.ofList data } }
    | none => r.append (r.document.create .text (String.ofList data))

/-- The last place in a list where something holds. -/
def lastIndex? {α : Type} (p : α → Bool) (l : List α) : Option Nat :=
  (l.reverse.findIdx? p).map fun i => l.length - 1 - i

/-- Gives an element an attribute, unless it has one of that name. -/
def giveFirst (d : Document) (n : NodeId) (name value : String) : Document :=
  if (d.attributeOf? n name).isSome then d else d.giveAttribute n name value

/-- What stands in front of a mark, and the number of bytes up to behind the mark; all if there is no mark. -/
def upToMark? (mark s : List Char) : Option (List Char × Nat) :=
  match findMark? mark s with
  | some stop => (upTo? stop s).map fun data => (data, stop + utf8Len mark)
  | none => some (s, utf8Len s)

/-- What the text in an element that is not read as markup stands for. -/
def plainText? (kind : RawText) (s : List Char) : Option (List Char) :=
  match kind with
  | .verbatim => some s
  | .decoded => decodeBytes? s

/-- The number of bytes of an attribute name, which has a first character whichever it is. -/
def attributeNameStop (rest : List Char) : Nat :=
  match findChar? (!isAttributeNamePart ·) rest with
  | some 0 => (rest.head?.map Char.utf8Size).getD 1
  | some stop => stop
  | none => utf8Len rest

section Passes

variable (input : List Char)

/-- A comment, read from behind its opening mark of so many bytes up to its closing mark. -/
def comment (skip : Nat) (mark : List Char) (r : Scanner) : Option Scanner := do
  let rest ← from? r.position input
  let body ← from? skip rest
  let (data, consumed) ← upToMark? mark body
  { r with position := r.position + (skip + consumed) }.append
    (r.document.create .comment (String.ofList data))

/-- Text up to the next bracket behind its first character. -/
def text (r : Scanner) : Option Scanner := do
  let rest ← from? r.position input
  let first := (rest.head?.map Char.utf8Size).getD 1
  let behind ← from? first rest
  let stop := ((findChar? (· == '<') behind).map (· + first)).getD (utf8Len rest)
  let data ← upTo? stop rest
  let decoded ← decodeBytes? data
  { r with position := r.position + stop }.appendText decoded

/-- The name of a tag, and the position behind it. -/
def tagName (position : Nat) : Option (List Char × Nat) := do
  let rest ← from? position input
  let stop := (findChar? (!isTagNamePart ·) rest).getD (utf8Len rest)
  let name ← upTo? stop rest
  pure (name, position + stop)

/-- The position behind some blanks. -/
def skipBlanks (position : Nat) : Option Nat := do
  let rest ← from? position input
  pure (position + (utf8Len rest - utf8Len (trimStart rest)))

/-- An end tag: the innermost open element of its name and all inside it is closed, the fragment never. -/
def endTag (r : Scanner) : Option Scanner := do
  let (name, position) ← tagName input (r.position + 2)
  let rest ← from? position input
  let index := lastIndex? (fun node => r.document.isElement node.1 &&
    sameLetters (r.document.name node.1).toList name) r.stack
  pure { r with
    position := ((findChar? (· == '>') rest).map fun stop => position + stop + 1).getD (utf8Len input)
    stack := (index.map fun i => r.stack.take (max i 1)).getD r.stack }

/-- The value behind an equals sign and its blanks, and the position behind it. -/
def valueAfterEquals (position : Nat) : Option (List Char × Nat) := do
  let rest ← from? position input
  match rest.head?.filter fun c => c = '"' ∨ c = '\x27' with
  | some quote =>
    let body ← from? 1 rest
    let stop := (findChar? (· == quote) body).getD (utf8Len body)
    let data ← upTo? stop body
    let value ← decodeBytes? data
    pure (value, position + (1 + stop + if stop < utf8Len body then 1 else 0))
  | none =>
    let stop := (findChar? (!isBareValuePart ·) rest).getD (utf8Len rest)
    let data ← upTo? stop rest
    let value ← decodeBytes? data
    pure (value, position + stop)

/-- The value of an attribute whose name has been read, and the position behind it. -/
def attributeValue (position : Nat) : Option (List Char × Nat) := do
  let position ← skipBlanks input position
  let rest ← from? position input
  if ['='].isPrefixOf rest then
    let position ← skipBlanks input (position + 1)
    valueAfterEquals input position
  else pure ([], position)

/-- One pass through the attributes of a start tag. -/
def attributePass (n : NodeId) (space : Namespace) (r : Scanner) : Option Turn := do
  let position ← skipBlanks input r.position
  let rest ← from? position input
  if rest.isEmpty then pure (.leave false { r with position })
  else if ['/', '>'].isPrefixOf rest then pure (.leave true { r with position := position + 2 })
  else if ['>'].isPrefixOf rest then pure (.leave false { r with position := position + 1 })
  else if ['/'].isPrefixOf rest then pure (.stay { r with position := position + 1 })
  else
    let stop := attributeNameStop rest
    let name ← upTo? stop rest
    let (value, position) ← attributeValue input (position + stop)
    pure (.stay { r with
      document := giveFirst r.document n (Tag.spelling space name) (String.ofList value)
      position })

/-- The attributes of a start tag up to its end; tells whether it is closed. -/
def attributes (n : NodeId) (space : Namespace) (r : Scanner) : Option (Bool × Scanner) :=
  match attributePass input n space r with
  | none => none
  | some (.leave closed next) => some (closed, next)
  | some (.stay next) =>
    if r.position < next.position ∧ next.position ≤ utf8Len input then attributes n space next else none
termination_by utf8Len input - r.position

/-- The content of an element that is not read as markup, if it is such an element. -/
def rawText (name : String) (space : Namespace) (n : NodeId) (r : Scanner) : Option Scanner :=
  match if space = .html then rawTextNames.lookup name else none with
  | none => some r
  | some kind => do
    let rest ← from? r.position input
    let found ← findEndTag? name.toList rest
    let stop := found.getD (utf8Len rest)
    let data ← upTo? stop rest
    let r := { r with position := r.position + stop }
    if data.isEmpty then pure r
    else
      let decoded ← plainText? kind data
      let made := r.document.create .text (String.ofList decoded)
      pure { r with document := made.2.link n made.1 }

/-- Puts a new element into the innermost open node, and leaves it open if it can have content. -/
def enter (name : String) (space : Namespace) (n : NodeId) (closed : Bool) (r : Scanner) : Option Scanner := do
  let r ← r.append (n, r.document)
  if space = .html ∧ name ∈ voidNames then pure r
  else if space = .svg ∧ closed then pure r
  else
    let r ← rawText input name space n r
    let inside := if space = .svg ∧ name = "foreignObject" then .html else space
    pure { r with stack := r.stack ++ [(n, inside)] }

/-- A start tag, with the content behind it if that is not read as markup. -/
def startTag (r : Scanner) : Option Scanner := do
  let (name, position) ← tagName input (r.position + 1)
  let parent ← r.stack.getLast?
  let space := Tag.spaceOf parent.2 name
  let name := Tag.spelling space name
  let made := r.document.create (.element name space) ""
  let (closed, r) ← attributes input made.1 space { r with document := made.2, position }
  r.enter input name space made.1 closed

/-- Whether a text begins with a mark and a letter. -/
def beginsTag (mark rest : List Char) : Option Bool := do
  if mark.isPrefixOf rest then
    let behind ← from? (utf8Len mark) rest
    pure (behind.head?.any isLetter)
  else pure false

/-- One pass of reading. -/
def pass (r : Scanner) : Option Scanner := do
  let rest ← from? r.position input
  if ['<', '!', '-', '-'].isPrefixOf rest then r.comment input 4 ['-', '-', '>']
  else if ← beginsTag ['<', '/'] rest then r.endTag input
  else if ['<', '!'].isPrefixOf rest ∨ ['<', '?'].isPrefixOf rest ∨ ['<', '/'].isPrefixOf rest then
    r.comment input 2 ['>']
  else if ← beginsTag ['<'] rest then r.startTag input
  else r.text input

/-- Reads up to the end of the text. -/
def run (r : Scanner) : Option Scanner :=
  if r.position < utf8Len input then
    match pass input r with
    | none => none
    | some next =>
      if r.position < next.position ∧ next.position ≤ utf8Len input then run next else none
  else some r
termination_by utf8Len input - r.position

end Passes

end Scanner

end LiveMarkup
