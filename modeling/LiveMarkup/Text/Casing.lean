/-!
# Letter case

Names are compared and normalised by the ASCII letters alone; all other characters are left as they
are.
-/

namespace LiveMarkup.Text

/-- A text with its ASCII capitals made small. -/
def lower (s : List Char) : List Char :=
  s.map Char.toLower

/-- A string with its ASCII capitals made small. -/
def lowerString (s : String) : String :=
  String.ofList (lower s.toList)

/-- Whether two texts are equal up to the case of their ASCII letters. -/
def sameLetters (a b : List Char) : Bool :=
  lower a == lower b

@[simp] theorem length_lower (s : List Char) : (lower s).length = s.length := by
  simp [lower]

/-- A text in small letters as far as they are ASCII letters. Outside ASCII only the Kelvin sign has
one for its small letter. -/
def lowerToAscii (s : List Char) : List Char :=
  s.map fun c => if c = '\u212a' then 'k' else c.toLower

/-- An ASCII letter, of either case. -/
def isLetter (c : Char) : Bool :=
  c.isAlpha

end LiveMarkup.Text
