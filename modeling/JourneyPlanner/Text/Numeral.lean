/-!
# Decimal numerals

Whole numbers written in decimal digits.

* `digits n`: the shortest numeral of `n`.
* `padded n`: the same, with at least two digits.
* `readNat`, `readInt`: the number that a numeral stands for, within bounds.
-/

namespace JourneyPlanner.Text

def digitChar (d : Nat) : Char := Char.ofNat (48 + d)

/-- The value of a character, when it is one of the ten ASCII digits. -/
def digitValue? (c : Char) : Option Nat :=
  if 48 ≤ c.toNat ∧ c.toNat ≤ 57 then some (c.toNat - 48) else none

/-- The numeral of a number, most significant digit first, without leading zeros. -/
def digits (n : Nat) : List Char :=
  if n < 10 then [digitChar n] else digits (n / 10) ++ [digitChar (n % 10)]
termination_by n

/-- The numeral of a number, with a leading zero when it has one digit. -/
def padded (n : Nat) : List Char :=
  if n < 10 then '0' :: digits n else digits n

/-- The numeral of a whole number, with a minus sign in front of a negative one. -/
def signedDigits (x : Int) : List Char :=
  if x < 0 then '-' :: digits x.natAbs else digits x.natAbs

/-- The number written by a sequence of digits after those that gave `value`. -/
def valueFrom (value : Nat) : List Char → Option Nat
  | [] => some value
  | c :: cs => do valueFrom (10 * value + (← digitValue? c)) cs

/-- The number written by a nonempty sequence of digits. -/
def value? : List Char → Option Nat
  | [] => none
  | c :: cs => valueFrom 0 (c :: cs)

/-- The number written by an unsigned numeral, a plus sign being allowed, unless it is above
`greatest`. -/
def readNat (greatest : Nat) (cs : List Char) : Option Nat := do
  let n ← value? (match cs with
    | '+' :: rest => rest
    | _ => cs)
  if n ≤ greatest then some n else none

/-- The number written by a numeral with an optional sign, unless it is outside the bounds. -/
def readInt (least greatest : Int) (cs : List Char) : Option Int := do
  let x ← match cs with
    | '-' :: rest => (value? rest).map fun n => -(n : Int)
    | '+' :: rest => (value? rest).map Int.ofNat
    | _ => (value? cs).map Int.ofNat
  if least ≤ x ∧ x ≤ greatest then some x else none

end JourneyPlanner.Text
