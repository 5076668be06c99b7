import JourneyPlanner.Text.Numeral

/-!
# Reading floating numbers

The floating numbers nearest to decimal texts.

* `Scientific`: a number `significand * 10 ^ exponent` with a sign.
* `Scientific.toFloat`: the nearest floating number.
* `readFloat`: the number written by a text such as `1.5`, `.5e-3` or `inf`.
-/

namespace JourneyPlanner.Decimal

/-- The number `significand * 10 ^ exponent`, negated when `negative`. -/
structure Scientific where
  negative : Bool
  significand : Nat
  exponent : Int
deriving DecidableEq, Repr

/-- The floating number nearest to a decimal one. A number below the least positive floating
number by hundreds of places is zero, and one as far above the greatest is infinite. -/
def Scientific.toFloat (x : Scientific) : Float :=
  let magnitude : Float :=
    if x.significand = 0 then 0
    else
      let places := (Text.digits x.significand).length + x.exponent
      if places < -400 then 0
      else if places > 400 then 1 / 0
      else Float.ofScientific x.significand (x.exponent < 0) x.exponent.natAbs
  if x.negative then -magnitude else magnitude

/-- The digits at the start of a text, and the rest of it. -/
def spanDigits (cs : List Char) : List Char × List Char :=
  cs.span fun c => (Text.digitValue? c).isSome

/-- The exponent written at the end of a number, zero when there is none. -/
def readExponent : List Char → Option Int
  | [] => some 0
  | c :: cs =>
    if c = 'e' ∨ c = 'E' then
      match cs with
      | '-' :: rest => (Text.value? rest).map fun n => -(n : Int)
      | '+' :: rest => (Text.value? rest).map Int.ofNat
      | _ => (Text.value? cs).map Int.ofNat
    else none

/-- An unsigned number: digits with a point somewhere among or around them, and an exponent. -/
def readUnsigned (negative : Bool) (cs : List Char) : Option Scientific := do
  let (whole, rest) := spanDigits cs
  let (places, rest) := match rest with
    | '.' :: rest => spanDigits rest
    | _ => ([], rest)
  let significand ← Text.value? (whole ++ places)
  let exponent ← readExponent rest
  some ⟨negative, significand, exponent - places.length⟩

/-- The floating number nearest to the number that a text stands for. Besides decimal numbers
the texts `inf`, `infinity` and `nan` are read, in any case. -/
def readFloat (cs : List Char) : Option Float :=
  let (negative, rest) := match cs with
    | '-' :: rest => (true, rest)
    | '+' :: rest => (false, rest)
    | _ => (false, cs)
  let signed (x : Float) : Float := if negative then -x else x
  let name := rest.map Char.toLower
  if name = "inf".toList ∨ name = "infinity".toList then some (signed (1 / 0))
  else if name = "nan".toList then some (signed (0 / 0))
  else (readUnsigned negative rest).map Scientific.toFloat

end JourneyPlanner.Decimal
