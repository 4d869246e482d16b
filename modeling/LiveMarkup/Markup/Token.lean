import LiveMarkup.Markup.Reference
import LiveMarkup.Text.Blank
import LiveMarkup.Text.Casing
/-!
# Tokens

Markup is cut into start tags, end tags, comments and stretches of text. Every text has tokens,
however malformed: `Token.next` always takes at least one character (`length_next_lt`), and what
looks like a tag but is none becomes a comment or text.
-/

namespace LiveMarkup.Markup

open Text (cutAt isBlank isLetter trimStart length_cutAt_le length_trimStart_le)

/-- One token. The names are as written, attribute values are decoded, text is not. -/
inductive Token where
  | startTag (name : List Char) (attributes : List (List Char × List Char)) (closed : Bool)
  | endTag (name : List Char)
  | comment (data : List Char)
  | text (data : List Char)
deriving Repr

namespace Token

/-- Whether a character belongs to a tag name that has begun. -/
def isTagNamePart (c : Char) : Bool :=
  !(isBlank c || c == '/' || c == '>')

/-- Whether a character belongs to an attribute name that has begun. -/
def isAttributeNamePart (c : Char) : Bool :=
  isTagNamePart c && c != '='

/-- Whether a character belongs to an attribute value without quotes. -/
def isBareValuePart (c : Char) : Bool :=
  !(isBlank c || c == '>')

/-- An attribute name and what follows it. An equals sign in front is a name of its own. -/
def attributeName (c : Char) (rest : List Char) : List Char × List Char :=
  if c = '=' then (['='], rest)
  else (c :: rest.takeWhile isAttributeNamePart, rest.dropWhile isAttributeNamePart)

/-- The value behind an equals sign and its blanks, and what follows it: up to the closing quote, or
up to the next blank or end of the tag. -/
def valueAfterEquals : List Char → List Char × List Char
  | [] => ([], [])
  | c :: rest =>
    if c = '"' ∨ c = '\x27' then
      let cut := cutAt [c] rest
      (Reference.decode cut.1, cut.2)
    else
      (Reference.decode ((c :: rest).takeWhile isBareValuePart),
        (c :: rest).dropWhile isBareValuePart)

/-- The value of an attribute whose name has just been read; it is empty without an equals sign. -/
def attributeValue (s : List Char) : List Char × List Char :=
  match trimStart s with
  | '=' :: rest => valueAfterEquals (trimStart rest)
  | rest => ([], rest)

theorem length_attributeName_le (c : Char) (rest : List Char) :
    (attributeName c rest).2.length ≤ rest.length := by
  unfold attributeName
  split
  · exact Nat.le_refl _
  · exact (List.dropWhile_sublist _).length_le

theorem length_valueAfterEquals_le (s : List Char) : (valueAfterEquals s).2.length ≤ s.length := by
  unfold valueAfterEquals
  split
  · simp
  · split
    · exact Nat.le_succ_of_le (length_cutAt_le _ _)
    · exact (List.dropWhile_sublist _).length_le

theorem length_attributeValue_le (s : List Char) : (attributeValue s).2.length ≤ s.length := by
  have hs := length_trimStart_le s
  unfold attributeValue
  split
  · rename_i rest heq
    rw [heq, List.length_cons] at hs
    have := length_valueAfterEquals_le (trimStart rest)
    have := length_trimStart_le rest
    omega
  · exact hs

/-- What stands between the name and the end of a start tag. -/
structure TagTail where
  attributes : List (List Char × List Char)
  closed : Bool
  rest : List Char

/-- Reads attributes up to the end of the tag or of the text. A slash that does not end the tag is
skipped. -/
def tagTail (s : List Char) : TagTail :=
  match _h : trimStart s with
  | [] => ⟨[], false, []⟩
  | '/' :: '>' :: rest => ⟨[], true, rest⟩
  | '>' :: rest => ⟨[], false, rest⟩
  | '/' :: rest => tagTail rest
  | c :: rest =>
    let name := attributeName c rest
    let value := attributeValue name.2
    let tail := tagTail value.2
    { tail with attributes := (name.1, value.1) :: tail.attributes }
termination_by s.length
decreasing_by
  all_goals
    have hs := length_trimStart_le s
    rw [_h, List.length_cons] at hs
  · omega
  · have := length_attributeName_le c rest
    have := length_attributeValue_le (attributeName c rest).2
    omega

theorem length_tagTail_le (s : List Char) : (tagTail s).rest.length ≤ s.length := by
  fun_induction tagTail s with
  | case1 => simp
  | case2 s rest h =>
    have hs := length_trimStart_le s
    rw [h, List.length_cons, List.length_cons] at hs
    show rest.length ≤ s.length
    omega
  | case3 s rest h =>
    have hs := length_trimStart_le s
    rw [h, List.length_cons] at hs
    show rest.length ≤ s.length
    omega
  | case4 s rest _ h ih =>
    have hs := length_trimStart_le s
    rw [h, List.length_cons] at hs
    omega
  | case5 s c rest _ _ _ h name value tail ih =>
    have hs := length_trimStart_le s
    rw [h, List.length_cons] at hs
    have hname : name.2.length ≤ rest.length := length_attributeName_le c rest
    have hvalue : value.2.length ≤ name.2.length := length_attributeValue_le name.2
    exact Nat.le_trans ih (by omega)

/-- A start tag, read from behind its opening bracket. -/
def startTagFrom (s : List Char) : Token × List Char :=
  let tail := tagTail (s.dropWhile isTagNamePart)
  (.startTag (s.takeWhile isTagNamePart) tail.attributes tail.closed, tail.rest)

/-- An end tag, read from behind its opening bracket and slash. What follows the name is skipped. -/
def endTagFrom (s : List Char) : Token × List Char :=
  (.endTag (s.takeWhile isTagNamePart), (cutAt ['>'] (s.dropWhile isTagNamePart)).2)

/-- A comment up to a closing mark that is taken off, or up to the end of the text. -/
def commentUpTo (mark s : List Char) : Token × List Char :=
  let cut := cutAt mark s
  (.comment cut.1, cut.2)

/-- A stretch of text: the first character, whichever it is, and all up to the next bracket. -/
def textFrom (c : Char) (rest : List Char) : Token × List Char :=
  (.text (c :: rest.takeWhile (· != '<')), rest.dropWhile (· != '<'))

/-- The token that begins with an opening bracket. -/
def afterBracket : List Char → Token × List Char
  | '!' :: '-' :: '-' :: rest => commentUpTo ['-', '-', '>'] rest
  | '!' :: rest => commentUpTo ['>'] rest
  | '?' :: rest => commentUpTo ['>'] rest
  | '/' :: rest => if rest.head?.any isLetter then endTagFrom rest else commentUpTo ['>'] rest
  | rest => if rest.head?.any isLetter then startTagFrom rest else textFrom '<' rest

/-- The first token of the text `c :: rest`, and what follows it. -/
def next (c : Char) (rest : List Char) : Token × List Char :=
  if c = '<' then afterBracket rest else textFrom c rest

theorem length_startTagFrom_le (s : List Char) : (startTagFrom s).2.length ≤ s.length :=
  Nat.le_trans (length_tagTail_le _) (List.dropWhile_sublist _).length_le

theorem length_endTagFrom_le (s : List Char) : (endTagFrom s).2.length ≤ s.length :=
  Nat.le_trans (length_cutAt_le _ _) (List.dropWhile_sublist _).length_le

theorem length_commentUpTo_le (mark s : List Char) : (commentUpTo mark s).2.length ≤ s.length :=
  length_cutAt_le _ _

theorem length_textFrom_le (c : Char) (s : List Char) : (textFrom c s).2.length ≤ s.length :=
  (List.dropWhile_sublist _).length_le

theorem length_afterBracket_le (s : List Char) : (afterBracket s).2.length ≤ s.length := by
  unfold afterBracket
  split
  · exact Nat.le_trans (length_commentUpTo_le _ _) (by simp; omega)
  · exact Nat.le_trans (length_commentUpTo_le _ _) (by simp)
  · exact Nat.le_trans (length_commentUpTo_le _ _) (by simp)
  · split
    · exact Nat.le_trans (length_endTagFrom_le _) (by simp)
    · exact Nat.le_trans (length_commentUpTo_le _ _) (by simp)
  · split
    · exact length_startTagFrom_le _
    · exact length_textFrom_le _ _

/-- A token takes at least one character. -/
theorem length_next_lt (c : Char) (rest : List Char) :
    (next c rest).2.length < (c :: rest).length := by
  rw [List.length_cons, Nat.lt_succ_iff]
  unfold next
  split
  · exact length_afterBracket_le _
  · exact length_textFrom_le _ _

/-- Whether a text begins with the end tag of an element, in letters of any case. -/
def beginsEndTag (name : List Char) : List Char → Bool
  | '<' :: '/' :: rest => Text.sameLetters (rest.take name.length) name
  | _ => false

/-- The content of a raw text element, and the text from its end tag on. -/
def rawText (name : List Char) : List Char → List Char × List Char
  | [] => ([], [])
  | c :: rest =>
    if beginsEndTag name (c :: rest) then ([], c :: rest)
    else
      let cut := rawText name rest
      (c :: cut.1, cut.2)

theorem append_rawText (name s : List Char) : (rawText name s).1 ++ (rawText name s).2 = s := by
  induction s with
  | nil => rfl
  | cons c rest ih =>
    rw [rawText]
    split
    · rfl
    · simp [ih]

theorem length_rawText_le (name s : List Char) : (rawText name s).2.length ≤ s.length := by
  have := congrArg List.length (append_rawText name s)
  rw [List.length_append] at this
  omega

end Token

end LiveMarkup.Markup
