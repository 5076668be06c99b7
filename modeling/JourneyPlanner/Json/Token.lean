import JourneyPlanner.Text.Numeral
import JourneyPlanner.Decimal.Reading

/-!
# JSON tokens

* `Token`: a punctuation mark, a literal, a number or a text.
* `readString`: the content of a text, up to its closing quote.
* `readNumber`: a number, up to the first character that cannot belong to it.
* `Token.scan`: the tokens of a text, up to the first place where there is none.
-/

namespace JourneyPlanner.Json

/-- A piece of a JSON text. -/
inductive Token where
  | openBrace
  | closeBrace
  | openBracket
  | closeBracket
  | comma
  | colon
  | null
  | bool (value : Bool)
  | int (value : Int)
  | float (value : Float)
  | string (value : String)

/-! ### Texts -/

def hexValue? (c : Char) : Option Nat :=
  let n := c.toNat
  if 48 ≤ n ∧ n ≤ 57 then some (n - 48)
  else if 97 ≤ n ∧ n ≤ 102 then some (n - 87)
  else if 65 ≤ n ∧ n ≤ 70 then some (n - 55)
  else none

/-- The number written by four hexadecimal digits. -/
def unit? (a b c d : Char) : Option Nat := do
  return (((← hexValue? a) * 16 + (← hexValue? b)) * 16 + (← hexValue? c)) * 16 + (← hexValue? d)

/-- The character that an escape of one letter stands for. -/
def escaped? (c : Char) : Option Char :=
  if c = '"' ∨ c = '\\' ∨ c = '/' then some c
  else if c = 'b' then some '\x08'
  else if c = 'f' then some '\x0c'
  else if c = 'n' then some '\n'
  else if c = 'r' then some '\r'
  else if c = 't' then some '\t'
  else none

/-- The content of a text up to its closing quote, and what follows it. A character beyond 16 bits
is escaped as two units, which must come together. -/
def readString : List Char → Option (List Char × List Char)
  | [] => none
  | '"' :: rest => some ([], rest)
  | '\\' :: 'u' :: a :: b :: c :: d :: rest => do
    let unit ← unit? a b c d
    if 0xD800 ≤ unit ∧ unit ≤ 0xDBFF then
      match rest with
      | '\\' :: 'u' :: a :: b :: c :: d :: rest => do
        let low ← unit? a b c d
        if 0xDC00 ≤ low ∧ low ≤ 0xDFFF then
          let (content, rest) ← readString rest
          some (Char.ofNat (0x10000 + (unit - 0xD800) * 1024 + (low - 0xDC00)) :: content, rest)
        else none
      | _ => none
    else if 0xDC00 ≤ unit ∧ unit ≤ 0xDFFF then none
    else
      let (content, rest) ← readString rest
      some (Char.ofNat unit :: content, rest)
  | '\\' :: e :: rest => do
    let c ← escaped? e
    let (content, rest) ← readString rest
    some (c :: content, rest)
  | c :: rest =>
    if c.toNat < 32 ∨ c = '\\' then none
    else do
      let (content, rest) ← readString rest
      some (c :: content, rest)

/-! ### Numbers -/

def greatestLong : Nat := 18446744073709551615

/-- The leading digits of a number and the power of ten that scales them. -/
structure Significand where
  value : Nat
  exponent : Int

/-- The significand after a digit before the point. Digits that no longer fit 64 bits only count
for the exponent. -/
def Significand.addWhole (s : Significand) (digit : Nat) : Significand :=
  if s.exponent = 0 ∧ s.value * 10 + digit ≤ greatestLong then ⟨s.value * 10 + digit, 0⟩
  else ⟨s.value, s.exponent + 1⟩

/-- The significand after the digits behind the point, as far as they fit 64 bits. -/
def Significand.addPlaces (s : Significand) : List Nat → Significand
  | [] => s
  | digit :: rest =>
    if s.value * 10 + digit ≤ greatestLong then
      Significand.addPlaces ⟨s.value * 10 + digit, s.exponent - 1⟩ rest
    else s

/-- A floating number times a power of ten: one multiplication or division by the power nearest to
it, after as many divisions by the greatest power as are needed. There is no answer beyond the
floating numbers. -/
def scale (x : Float) (exponent : Int) : Option Float :=
  if exponent.natAbs ≤ 308 then
    let power := Float.ofScientific 1 false exponent.natAbs
    if 0 ≤ exponent then
      let y := x * power
      if y.isInf then none else some y
    else some (x / power)
  else if x == 0 then some x
  else if 0 ≤ exponent then none
  else scale (x / 1e308) (exponent + 308)
termination_by exponent.natAbs

/-- The floating number of a significand, with its sign. -/
def Significand.toFloat (negative : Bool) (s : Significand) : Option Float :=
  (scale (Float.ofNat s.value) s.exponent).map fun x => if negative then -x else x

/-- The greatest exponent that is written out. -/
def greatestExponent : Nat := 2147483647

/-- The floating number of a significand with an exponent behind it. -/
def withExponent (negative : Bool) (s : Significand) (down : Bool) (exponent : Nat) :
    Option Float :=
  if exponent ≤ greatestExponent then
    let exponent : Int := if down then -exponent else exponent
    Significand.toFloat negative { s with exponent := s.exponent + exponent }
  else if s.value ≠ 0 ∧ !down then none
  else some (if negative then -0.0 else 0.0)

/-- The digits at the start of a text, as numbers, and the rest of it. -/
def readDigits : List Char → List Nat × List Char
  | [] => ([], [])
  | c :: cs =>
    match Text.digitValue? c with
    | some digit =>
      let (digits, rest) := readDigits cs
      (digit :: digits, rest)
    | none => ([], c :: cs)

def numberOf (digits : List Nat) : Nat := digits.foldl (fun n digit => n * 10 + digit) 0

/-- A whole number, or a floating one when it is negative zero or beyond 64 bits. -/
def wholeToken (negative : Bool) (digits : List Nat) : Option Token :=
  let n := numberOf digits
  if !negative && n ≤ greatestLong then some (.int n)
  else if negative && 0 < n && n ≤ 9223372036854775808 then some (.int (-n))
  else
    (Significand.toFloat negative (digits.foldl Significand.addWhole ⟨0, 0⟩)).map .float

/-- The exponent of a number: its sign and its digits, of which there must be one. -/
def readExponent (cs : List Char) : Option (Bool × Nat × List Char) :=
  let (down, cs) := match cs with
    | '-' :: rest => (true, rest)
    | '+' :: rest => (false, rest)
    | _ => (false, cs)
  match readDigits cs with
  | ([], _) => none
  | (digits, rest) => some (down, numberOf digits, rest)

/-- A number after its sign, and what follows it. Its first digit is zero only if it is the only
one before the point. -/
def readUnsigned (negative : Bool) (cs : List Char) : Option (Token × List Char) := do
  let (whole, rest) := readDigits cs
  match whole with
  | [] => none
  | 0 :: _ :: _ => none
  | _ =>
    let (places, rest) ← match rest with
      | '.' :: rest =>
        match readDigits rest with
        | ([], _) => none
        | (digits, rest) => some (some digits, rest)
      | _ => some (none, rest)
    let s := (whole.foldl Significand.addWhole ⟨0, 0⟩).addPlaces (places.getD [])
    let float (rest : List Char) : Option (Token × List Char) :=
      if places.isSome then (s.toFloat negative).map fun x => (.float x, rest)
      else (wholeToken negative whole).map fun token => (token, rest)
    match rest with
    | c :: afterMark =>
      if c = 'e' ∨ c = 'E' then
        let (down, exponent, rest) ← readExponent afterMark
        (withExponent negative s down exponent).map fun x => (.float x, rest)
      else float rest
    | [] => float rest

def readNumber : List Char → Option (Token × List Char)
  | '-' :: rest => readUnsigned true rest
  | cs => readUnsigned false cs

/-! ### Tokens -/

/-- The text after a word that it has to start with. -/
def dropWord : List Char → List Char → Option (List Char)
  | [], cs => some cs
  | w :: word, c :: cs => if w = c then dropWord word cs else none
  | _ :: _, [] => none

namespace Token

/-- The token at the start of a text that does not start with a blank, and what follows it. -/
def read : List Char → Option (Token × List Char)
  | [] => none
  | c :: rest =>
    match c with
    | '\x7b' => some (.openBrace, rest)
    | '\x7d' => some (.closeBrace, rest)
    | '[' => some (.openBracket, rest)
    | ']' => some (.closeBracket, rest)
    | ',' => some (.comma, rest)
    | ':' => some (.colon, rest)
    | '"' => (readString rest).map fun (content, rest) => (.string (String.ofList content), rest)
    | 'n' => (dropWord "ull".toList rest).map fun rest => (.null, rest)
    | 't' => (dropWord "rue".toList rest).map fun rest => (.bool true, rest)
    | 'f' => (dropWord "alse".toList rest).map fun rest => (.bool false, rest)
    | _ => readNumber (c :: rest)

/-- Whether a character may stand between tokens. -/
def isSpace (c : Char) : Bool := c = ' ' || c = '\n' || c = '\r' || c = '\t'

/-- The tokens of a text after those already found, the last one in front, and whether they are all
of the text. Every step consumes at least a character, so that as many steps as there are
characters are enough. -/
def scanFrom : (steps : Nat) → List Token → List Char → List Token × Bool
  | _, found, [] => (found.reverse, true)
  | 0, found, _ :: _ => (found.reverse, false)
  | steps + 1, found, c :: rest =>
    if isSpace c then scanFrom steps found rest
    else
      match read (c :: rest) with
      | some (token, rest) => scanFrom steps (token :: found) rest
      | none => (found.reverse, false)

/-- The tokens of a text up to the first place where there is none, and whether this is its end. -/
def scan (text : String) : List Token × Bool :=
  let cs := text.toList
  scanFrom cs.length [] cs

end Token

end JourneyPlanner.Json
