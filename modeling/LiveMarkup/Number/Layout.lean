import LiveMarkup.Number.Shortest
/-!
# How numbers are written

A finite number is written with its shortest decimal, either with a point in its place or with an
exponent of ten. A `Layout` says where the one form ends and how the details look; there is one for
text that documents show and one for texts that describe values.
-/

namespace LiveMarkup

/-- The choices in writing a number. The point stays in place from `10 ^ leastPositional` up to, but
not including, `10 ^ firstExponential`. -/
structure Layout where
  undefined : String
  infinity : String
  leastPositional : Int
  firstExponential : Int
  /-- What follows a whole number that is written with the point in its place. -/
  wholeEnding : String
  /-- What stands in front of an exponent that is not negative. -/
  positiveExponent : String
  /-- Whether zero keeps its sign. -/
  signedZero : Bool
deriving Repr

namespace Layout

/-- As documents show a number: whole numbers up to `10 ^ 21` and small ones down to a millionth in
full, and a zero without sign. -/
def shown : Layout :=
  { undefined := "NaN"
    infinity := "Infinity"
    leastPositional := -6
    firstExponential := 21
    wholeEnding := ""
    positiveExponent := "+"
    signedZero := false }

/-- As descriptions of values give a number: with at least one place, and exponents from `10 ^ 16`
on and below a ten-thousandth. -/
def described : Layout :=
  { undefined := "NaN"
    infinity := "inf"
    leastPositional := -4
    firstExponential := 16
    wholeEnding := ".0"
    positiveExponent := ""
    signedZero := true }

/-- As many zeros as given. -/
def zeros (n : Nat) : String :=
  String.ofList (List.replicate n '0')

/-- A decimal with the point in its place. -/
def positional (layout : Layout) (d : Decimal) : String :=
  let digits := Nat.toDigits 10 d.digits
  match d.exponent with
  | .ofNat n => String.ofList digits ++ zeros n ++ layout.wholeEnding
  | .negSucc n =>
    let places := n + 1
    let padded := List.replicate (places + 1 - digits.length) '0' ++ digits
    String.ofList (padded.take (padded.length - places)) ++ "."
      ++ String.ofList (padded.drop (padded.length - places))

/-- A decimal with an exponent behind its digits. -/
def exponential (layout : Layout) (d : Decimal) : String :=
  let fraction : List Char :=
    match (Nat.toDigits 10 d.digits).tail with
    | [] => []
    | rest => '.' :: rest
  let power : String :=
    match d.magnitude with
    | .ofNat n => layout.positiveExponent ++ toString n
    | .negSucc n => "-" ++ toString (n + 1)
  String.ofList ((Nat.toDigits 10 d.digits).take 1 ++ fraction) ++ "e" ++ power

/-- A decimal in the form that its magnitude asks for. -/
def decimal (layout : Layout) (d : Decimal) : String :=
  if layout.leastPositional ≤ d.magnitude ∧ d.magnitude < layout.firstExponential then
    layout.positional d
  else layout.exponential d

/-- A number as it is written. -/
def write (layout : Layout) (x : Binary64) : String :=
  if x.isUndefined then layout.undefined
  else
    let sign := if x.isNegative && (layout.signedZero || !x.isZero) then "-" else ""
    sign ++ if x.isFinite then layout.decimal (Decimal.shortest x) else layout.infinity

end Layout

end LiveMarkup
