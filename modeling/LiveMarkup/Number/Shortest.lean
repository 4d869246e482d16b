import LiveMarkup.Number.Binary64
/-!
# The shortest decimal of a number

The decimal written for a finite number has the fewest digits among all that read back as this
number, and is the nearest to it among those. A decimal reads back if it lies between the midpoints
to the two neighbouring numbers; a midpoint itself reads back if the significand is even.
-/

namespace LiveMarkup

/-- The decimal `digits * 10 ^ exponent`. -/
structure Decimal where
  digits : Nat
  exponent : Int
deriving DecidableEq, Repr

namespace Decimal

/-- A positive quotient, and how far from it a decimal may lie: all three as multiples of `1 / den`.
-/
structure Interval where
  low : Nat
  value : Nat
  high : Nat
  den : Nat
  closed : Bool
deriving Repr

/-- The decimals that read back as a finite number other than zero, whatever its sign. In units of a
quarter of the last place the midpoints are two away, or one below a power of two. -/
def Interval.ofNumber (x : Binary64) : Interval :=
  let unit := Nat.pow 2 x.scale
  let m := 4 * x.significand
  let below := if x.fractionField = 0 ∧ 1 < x.exponentField then 1 else 2
  { low := (m - below) * unit
    value := m * unit
    high := (m + 2) * unit
    den := Nat.pow 2 1076
    closed := x.significand % 2 = 0 }

/-- The interval in units of `10 ^ k`. -/
def Interval.inUnits (i : Interval) (k : Int) : Interval :=
  match k with
  | .ofNat n => { i with den := i.den * Nat.pow 10 n }
  | .negSucc n =>
    let f := Nat.pow 10 (n + 1)
    { i with low := i.low * f, value := i.value * f, high := i.high * f }

/-- Whether a whole number lies in the interval. -/
def Interval.holds (i : Interval) (n : Nat) : Bool :=
  let p := n * i.den
  if i.closed then i.low ≤ p && p ≤ i.high else i.low < p && p < i.high

/-- The whole number in the interval nearest to the value, if one of the two neighbours of the value
lies in it. Of two equally near the greater one is taken. -/
def Interval.nearest? (i : Interval) : Option Nat :=
  let n := i.value / i.den
  let belowHalf : Bool := 2 * (i.value % i.den) < i.den
  match i.holds n, i.holds (n + 1) with
  | true, true => some (if belowHalf then n else n + 1)
  | true, false => some n
  | false, true => some (n + 1)
  | false, false => none

/-- The number of decimal digits of a natural number; zero has one. -/
def length (n : Nat) : Nat :=
  (Nat.toDigits 10 n).length

/-- The least `j` from `start` on with `den ≤ value * 10 ^ j`, trying as many as `fuel`. -/
def shiftToOne (value den start : Nat) : Nat → Nat
  | 0 => start
  | fuel + 1 =>
    if den ≤ value * Nat.pow 10 start then start else shiftToOne value den (start + 1) fuel

/-- The exponent of the first digit of a positive quotient. -/
def leadingExponent (value den : Nat) : Int :=
  if den ≤ value then (length (value / den) : Int) - 1
  else -(shiftToOne value den 1 400 : Int)

/-- Takes zeros off the end of the digits, as many as `fuel`. -/
def trimZeros (d : Decimal) : Nat → Decimal
  | 0 => d
  | fuel + 1 =>
    if d.digits ≠ 0 ∧ d.digits % 10 = 0 then trimZeros ⟨d.digits / 10, d.exponent + 1⟩ fuel else d

/-- The first decimal that reads back when one more digit is allowed at a time. `k` is the exponent
of the last digit; seventeen digits always suffice. -/
def search (i : Interval) (k : Int) : Nat → Decimal
  | 0 => ⟨(i.inUnits k).value / (i.inUnits k).den, k⟩
  | fuel + 1 =>
    match (i.inUnits k).nearest? with
    | some n => ⟨n, k⟩
    | none => search i (k - 1) fuel

/-- The shortest decimal of a finite number without its sign. -/
def shortest (x : Binary64) : Decimal :=
  if x.isZero then ⟨0, 0⟩
  else
    let i := Interval.ofNumber x
    trimZeros (search i (leadingExponent i.value i.den) 17) 20

/-- The exponent of the first digit. -/
def magnitude (d : Decimal) : Int :=
  d.exponent + length d.digits - 1

end Decimal

end LiveMarkup
