import LiveMarkup.Text.Search
/-!
# Character references

In markup the characters that would be read as syntax are written as references such as an
ampersand, `lt` and a semicolon. `encode` writes the references that a place needs and `decode`
reads those it knows; an ampersand that starts no known reference stands for itself.
-/

namespace LiveMarkup.Markup.Reference

/-- The characters that have a named reference. -/
def named? (name : List Char) : Option Char :=
  if name = ['a', 'm', 'p'] then some '&'
  else if name = ['l', 't'] then some '<'
  else if name = ['g', 't'] then some '>'
  else if name = ['q', 'u', 'o', 't'] then some '"'
  else if name = ['a', 'p', 'o', 's'] then some '\x27'
  else if name = ['n', 'b', 's', 'p'] then some '\u00a0'
  else none

/-- The value of a digit in a base of at most sixteen. -/
def digit? (base : Nat) (c : Char) : Option Nat :=
  let value :=
    if c.isDigit then c.toNat - '0'.toNat
    else if 'a' ≤ c ∧ c ≤ 'f' then c.toNat - 'a'.toNat + 10
    else if 'A' ≤ c ∧ c ≤ 'F' then c.toNat - 'A'.toNat + 10
    else base
  if value < base then some value else none

/-- The number written by some digits; nothing if a character is no digit. -/
def digits? (base : Nat) (s : List Char) : Option Nat :=
  s.foldl (fun sum c => do pure ((← sum) * base + (← digit? base c))) (some 0)

/-- A number of at least one digit, which may have a plus sign in front. -/
def number? (base : Nat) : List Char → Option Nat
  | [] => none
  | ['+'] => none
  | '+' :: s => digits? base s
  | s => digits? base s

/-- The character with a given number, if there is one. -/
def scalar? (n : Nat) : Option Char :=
  if n.isValidChar then some (Char.ofNat n) else none

/-- The character that a reference stands for, given what is written between ampersand and
semicolon. -/
def value? : List Char → Option Char
  | '#' :: 'x' :: hex => number? 16 hex >>= scalar?
  | '#' :: 'X' :: hex => number? 16 hex >>= scalar?
  | '#' :: decimal => number? 10 decimal >>= scalar?
  | name => named? name

/-- The name of the reference that starts behind an ampersand: what stands in front of a semicolon
among the next twelve characters. -/
def name? (s : List Char) : Option (List Char) :=
  (Text.cutAt? [';'] (s.take 12)).map (·.1)

/-- The character of the reference that starts behind an ampersand, and the length of its name. -/
def start? (s : List Char) : Option (Char × Nat) := do
  let name ← name? s
  let c ← value? name
  pure (c, name.length)

/-- A text with its references replaced by the characters they stand for. -/
def decode : List Char → List Char
  | [] => []
  | c :: rest =>
    if c = '&' then
      match start? rest with
      | some (d, n) => d :: decode (rest.drop (n + 1))
      | none => '&' :: decode rest
    else c :: decode rest
termination_by s => s.length
decreasing_by all_goals simp only [List.length_drop, List.length_cons]; omega

/-- Where a text is written: between tags, or between the quotes of an attribute value. -/
inductive Place where
  | content
  | quoted
deriving DecidableEq, Repr

/-- One character as it is written in a place. -/
def encodeChar (place : Place) (c : Char) : List Char :=
  if c = '&' then ['&', 'a', 'm', 'p', ';']
  else if c = '\u00a0' then ['&', 'n', 'b', 's', 'p', ';']
  else if c = '"' ∧ place = .quoted then ['&', 'q', 'u', 'o', 't', ';']
  else if c = '<' ∧ place = .content then ['&', 'l', 't', ';']
  else if c = '>' ∧ place = .content then ['&', 'g', 't', ';']
  else [c]

/-- A text as it is written in a place. -/
def encode (place : Place) (s : List Char) : List Char :=
  s.flatMap (encodeChar place)

end LiveMarkup.Markup.Reference
