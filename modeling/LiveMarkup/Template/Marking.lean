import LiveMarkup.Template.Basic
import LiveMarkup.Markup.Vocabulary
import LiveMarkup.Text.Blank
import LiveMarkup.Text.Casing
/-!
# Marking the holes of a template

Before a template is read, its segments are joined with a marker for each hole. A hole behind
`name=` inside a start tag becomes an attribute that is named by the marker and has the name as its
value; any other hole becomes a comment that holds the marker. The joined text is trimmed, and tags
that close themselves get an end tag of their own, because HTML would let them swallow what follows.
-/

namespace LiveMarkup.Template

open Text (isBlank isLetter trimStart)

/-- The end of a segment that leaves an attribute without its value. -/
structure OpenAttribute where
  front : List Char
  name : List Char
  quote : Option Char
deriving DecidableEq, Repr

/-- Whether a character may stand in the attribute name in front of a hole. -/
def isHoleNamePart (c : Char) : Bool :=
  !(isBlank c || c == '\\' || c == '>' || c == '"' || c == '\x27' || c == '=')

/-- The quote that ends a text, and the text in front of it; the text is given and returned
backwards. -/
def closingQuote : List Char → Option Char × List Char
  | [] => (none, [])
  | c :: rest => if c = '"' ∨ c = '\x27' then (some c, rest) else (none, c :: rest)

/-- A name, an equals sign and perhaps an opening quote at the end of a segment. -/
def openAttribute? (segment : List Char) : Option OpenAttribute :=
  let ending := closingQuote segment.reverse
  match trimStart ending.2 with
  | '=' :: rest =>
    let rest := trimStart rest
    let name := rest.takeWhile isHoleNamePart
    if name.isEmpty then none
    else some ⟨(rest.dropWhile isHoleNamePart).reverse, name.reverse, ending.1⟩
  | _ => none

/-- Whether a bracket, a letter and at least one more character stand somewhere in a text. -/
def hasTagStart : List Char → Bool
  | '<' :: c :: d :: rest => isLetter c || hasTagStart (c :: d :: rest)
  | _ :: rest => hasTagStart rest
  | [] => false

/-- Whether a segment ends inside a start tag that it opens itself. -/
def endsInTag (segment : List Char) : Bool :=
  hasTagStart (segment.reverse.takeWhile (· != '>')).reverse

/-- Whether a segment ends behind a tag that it closes. -/
def endsInContent (segment : List Char) : Bool :=
  (segment.reverse.dropWhile fun c => c != '<' && c != '>').head? == some '>'

/-- Whether text behind some segments, last one first, is inside a start tag. A segment that neither
opens nor closes a tag leaves it to the one in front. -/
def leavesTagOpen : List (List Char) → Bool
  | [] => false
  | segment :: before =>
    if endsInTag segment then true
    else if endsInContent segment then false
    else leavesTagOpen before

/-- A segment that ends in an attribute without its value, with the marker of hole `i` as that
attribute. -/
def OpenAttribute.marked (tail : OpenAttribute) (i : Nat) : List Char :=
  tail.front ++ (marker i).toList ++ ['=', tail.quote.getD '"'] ++ tail.name
    ++ if tail.quote.isNone then ['"'] else []

/-- The comment that marks hole `i`. -/
def markerComment (i : Nat) : List Char :=
  ['<', '!', '-', '-'] ++ (marker i).toList ++ ['-', '-', '>']

/-- The segments from number `i` on, joined with their markers; `before` holds the earlier ones,
last one first. -/
def joined (before : List (List Char)) (i : Nat) : List (List Char) → List Char
  | [] => []
  | segment :: rest =>
    let marked :=
      match openAttribute? segment with
      | some tail => if leavesTagOpen (segment :: before) then some (tail.marked i) else none
      | none => none
    marked.getD (if rest.isEmpty then segment else segment ++ markerComment i)
      ++ joined (segment :: before) (i + 1) rest

/-- Whether a character belongs to the name of a tag that closes itself. -/
def isSelfClosingNamePart (c : Char) : Bool :=
  c.isAlphanum || c == ':' || c == '.' || c == '_' || c == '-'

/-- A tag that closes itself: its name, what stands between name and slash, and what follows. -/
structure SelfClosing where
  name : List Char
  inner : List Char
  rest : List Char

/-- The tag that closes itself from behind its opening bracket. The first closing bracket has to
follow a slash. -/
def selfClosing? (s : List Char) : Option SelfClosing :=
  if s.head?.any isLetter then
    let name := s.takeWhile isSelfClosingNamePart
    let inner := (s.dropWhile isSelfClosingNamePart).takeWhile (· != '>')
    match (s.dropWhile isSelfClosingNamePart).dropWhile (· != '>') with
    | [] => none
    | _ :: rest =>
      if inner.getLast? = some '/' then some ⟨name, inner.dropLast, rest⟩ else none
  else none

theorem length_selfClosing?_le {s : List Char} {tag : SelfClosing} (h : selfClosing? s = some tag) :
    tag.rest.length ≤ s.length := by
  unfold selfClosing? at h
  split at h
  · dsimp only at h
    split at h
    · simp at h
    · rename_i c rest heq
      split at h
      · cases h
        have hname := (List.dropWhile_sublist (l := s) isSelfClosingNamePart).length_le
        have hle := (List.dropWhile_sublist (l := s.dropWhile isSelfClosingNamePart)
          (· != '>')).length_le
        rw [heq, List.length_cons] at hle
        show rest.length ≤ s.length
        omega
      · simp at h
  · simp at h

/-- A tag that closes itself as it is written out: void elements stay as they are, all others get an
end tag. -/
def SelfClosing.expanded (tag : SelfClosing) : List Char :=
  if Markup.voidNames.contains (String.ofList (Text.lower tag.name)) then
    '<' :: tag.name ++ tag.inner ++ ['/', '>']
  else '<' :: tag.name ++ tag.inner ++ ['>', '<', '/'] ++ tag.name ++ ['>']

/-- A text with all tags that close themselves written out. -/
def expandSelfClosing : List Char → List Char
  | [] => []
  | c :: rest =>
    if c = '<' then
      match _h : selfClosing? rest with
      | some tag => tag.expanded ++ expandSelfClosing tag.rest
      | none => '<' :: expandSelfClosing rest
    else c :: expandSelfClosing rest
termination_by s => s.length
decreasing_by
  all_goals simp only [List.length_cons]
  · have := length_selfClosing?_le _h
    omega
  all_goals omega

/-- Segments as markup in which every hole is marked. -/
def markHoles (segments : List String) : String :=
  String.ofList (expandSelfClosing (Text.trim (joined [] 0 (segments.map String.toList))))

end LiveMarkup.Template
