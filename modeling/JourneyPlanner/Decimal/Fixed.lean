import JourneyPlanner.Text.Numeral

/-!
# Fixed decimal places

Floating numbers written with a fixed number of decimal places, and rounded.

* `Exact.ofFloat?`: the sign, the significand and the exponent that a finite number stands for.
* `Exact.nearest`: the nearest whole number, halves going away from zero.
* `roundDiv`: a quotient rounded to the nearest whole number, halves going to the even one.
* `fixed`: the text of a finite number with that many places.
-/

namespace JourneyPlanner.Decimal

/-- The number `significand * 2 ^ exponent`, negated when `negative`. -/
structure Exact where
  negative : Bool
  significand : Nat
  exponent : Int
deriving DecidableEq, Repr

/-- The weight of the leading digit of a significand that is not written: 2 ^ 52. -/
def hiddenBit : Nat := 4503599627370496

/-- The finite number held by a floating one, or nothing for an infinity or a non-number. -/
def Exact.ofFloat? (x : Float) : Option Exact :=
  let bits := x.toBits.toNat
  let negative := bits >>> 63 = 1
  let biased : Nat := (bits >>> 52) % 2048
  let fraction : Nat := bits % hiddenBit
  if biased = 2047 then none
  else if biased = 0 then some ⟨negative, fraction, -1074⟩
  else some ⟨negative, fraction + hiddenBit, (biased : Int) - 1075⟩

/-- The whole number nearest to a quotient, the even one when two are. -/
def roundDiv (numerator denominator : Nat) : Nat :=
  let quotient := numerator / denominator
  let rest := numerator % denominator
  if 2 * rest < denominator then quotient
  else if 2 * rest > denominator then quotient + 1
  else quotient + quotient % 2

/-- The number of units of the last place nearest to an exact number. -/
def Exact.units (x : Exact) (places : Nat) : Nat :=
  let scaled := x.significand * Nat.pow 10 places
  if x.exponent < 0 then roundDiv scaled (Nat.pow 2 x.exponent.natAbs)
  else scaled * Nat.pow 2 x.exponent.natAbs

/-- The whole number nearest to an exact number, halves away from zero. -/
def Exact.nearest (x : Exact) : Int :=
  let size : Nat :=
    if x.exponent < 0 then
      let unit := Nat.pow 2 x.exponent.natAbs
      (2 * x.significand + unit) / (2 * unit)
    else x.significand * Nat.pow 2 x.exponent.natAbs
  if x.negative then -size else size

/-- A numeral with zeros in front, up to a width. -/
def zeroFilled (width n : Nat) : List Char :=
  let shown := Text.digits n
  List.replicate (width - shown.length) '0' ++ shown

/-- An exact number with that many decimal places. A negative number keeps its sign even when
all its digits are zero. -/
def Exact.fixed (x : Exact) (places : Nat) : List Char :=
  let units := x.units places
  (if x.negative then ['-'] else []) ++ Text.digits (units / Nat.pow 10 places) ++
    '.' :: zeroFilled places (units % Nat.pow 10 places)

/-- A floating number with that many decimal places, `NaN`, `inf` or `-inf`. -/
def fixed (places : Nat) (x : Float) : String :=
  match Exact.ofFloat? x with
  | some exact => String.ofList (exact.fixed places)
  | none => if x.isNaN then "NaN" else if x < 0 then "-inf" else "inf"

end JourneyPlanner.Decimal
