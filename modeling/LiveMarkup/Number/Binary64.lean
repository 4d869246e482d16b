/-!
# Numbers in 64 bits

Numbers are held as the 64 bits of the binary interchange format: a sign, eleven bits of exponent
and 52 bits of fraction. All arithmetic on them is exact arithmetic on natural numbers.
-/

namespace LiveMarkup

/-- A number in the 64-bit binary format, given by its bits. -/
structure Binary64 where
  bits : UInt64
deriving DecidableEq, Repr, Inhabited

namespace Binary64

/-- Whether the sign bit is set. -/
def isNegative (x : Binary64) : Bool :=
  Nat.pow 2 63 ≤ x.bits.toNat

/-- The bits between sign and fraction. -/
def exponentField (x : Binary64) : Nat :=
  x.bits.toNat / Nat.pow 2 52 % Nat.pow 2 11

/-- The low 52 bits. -/
def fractionField (x : Binary64) : Nat :=
  x.bits.toNat % Nat.pow 2 52

/-- Neither infinite nor undefined. -/
def isFinite (x : Binary64) : Bool :=
  x.exponentField < 2047

/-- Not a number. -/
def isUndefined (x : Binary64) : Bool :=
  x.exponentField == 2047 && x.fractionField != 0

/-- Zero of either sign. -/
def isZero (x : Binary64) : Bool :=
  x.exponentField == 0 && x.fractionField == 0

/-- The significand of a finite number, with the leading bit that is not stored. -/
def significand (x : Binary64) : Nat :=
  if x.exponentField = 0 then x.fractionField else Nat.pow 2 52 + x.fractionField

/-- The power of two that the significand is multiplied with, counted from the least one, which is
`2 ^ (-1074)`. -/
def scale (x : Binary64) : Nat :=
  x.exponentField - 1

/-- Equality of numbers: the two zeros are equal, and what is no number equals nothing. -/
def sameNumber (x y : Binary64) : Bool :=
  !x.isUndefined && !y.isUndefined && (x == y || (x.isZero && y.isZero))

/-- The number with a given sign and the magnitude given by the other bits. -/
def ofMagnitude (negative : Bool) (magnitude : Nat) : Binary64 :=
  ⟨UInt64.ofNat ((if negative then Nat.pow 2 63 else 0) + magnitude)⟩

/-- A quotient rounded to the nearest integer, halves to the even neighbour. -/
def roundedQuotient (n d : Nat) : Nat :=
  let q := n / d
  let r := n % d
  if d < 2 * r ∨ (2 * r = d ∧ q % 2 = 1) then q + 1 else q

/-- The bits of a natural number without sign. A significand that rounds up to the next power of two
carries into the exponent. -/
def magnitudeOfNat (n : Nat) : Nat :=
  if n = 0 then 0
  else
    let top := n.log2
    let significand :=
      if top ≤ 52 then n * Nat.pow 2 (52 - top) else roundedQuotient n (Nat.pow 2 (top - 52))
    (top + 1022) * Nat.pow 2 52 + significand

/-- The number nearest to an integer. -/
def ofInt (n : Int) : Binary64 :=
  ofMagnitude (decide (n < 0)) (magnitudeOfNat n.natAbs)

/-- The number held in the 32-bit format: one bit of sign, eight of exponent and 23 of fraction. -/
def ofBinary32 (bits : UInt32) : Binary64 :=
  let n := bits.toNat
  let exponent := n / Nat.pow 2 23 % Nat.pow 2 8
  let fraction := n % Nat.pow 2 23
  ofMagnitude (decide (Nat.pow 2 31 ≤ n)) <|
    if exponent = 255 then 2047 * Nat.pow 2 52 + fraction * Nat.pow 2 29
    else if exponent = 0 then
      if fraction = 0 then 0
      else (fraction.log2 + 873) * Nat.pow 2 52 + fraction * Nat.pow 2 (52 - fraction.log2)
    else (exponent + 896) * Nat.pow 2 52 + fraction * Nat.pow 2 29

end Binary64

end LiveMarkup
