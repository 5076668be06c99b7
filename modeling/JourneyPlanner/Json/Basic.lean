import JourneyPlanner.Decimal.Fixed

/-!
# JSON values

* `Json`: a value. Whole numbers are kept apart from others, and the fields of an object in their
  order, repeated names included.
* `Json.field?`, `Json.int?` and their like: parts of a value.
* `Json.render`: a value as text.
-/

namespace JourneyPlanner

/-- A JSON value. -/
inductive Json where
  | null
  | bool (value : Bool)
  /-- a number without fraction and exponent, of at most 64 bits -/
  | int (value : Int)
  /-- any other number -/
  | float (value : Float)
  | string (value : String)
  | array (elements : List Json)
  | object (fields : List (String × Json))
deriving Inhabited

namespace Json

/-- The value of a field of an object. Of repeated fields the last one counts. -/
def field? (name : String) : Json → Option Json
  | .object fields => (fields.reverse.find? fun f => f.1 == name).map (·.2)
  | _ => none

def int? : Json → Option Int
  | .int value => some value
  | _ => none

/-- A number, which may be whole. -/
def float? : Json → Option Float
  | .int value => some (Float.ofInt value)
  | .float value => some value
  | _ => none

def string? : Json → Option String
  | .string value => some value
  | _ => none

def bool? : Json → Option Bool
  | .bool value => some value
  | _ => none

def array? : Json → Option (List Json)
  | .array elements => some elements
  | _ => none

/-- An object with its fields in the order of their names, of repeated ones the last. Any other
value is left as it is. -/
def ordered : Json → Json
  | .object fields =>
    let last := fields.foldl (fun known f => known.filter (·.1 != f.1) ++ [f]) []
    .object (last.mergeSort fun a b => a.1 ≤ b.1)
  | value => value

def ofNat (n : Nat) : Json := .int n

/-- A value that may be missing, `null` standing for it. -/
def ofOption {α : Type} (toJson : α → Json) : Option α → Json
  | some value => toJson value
  | none => .null

/-! ### Text -/

def hexDigit (n : Nat) : Char :=
  if n < 10 then Char.ofNat (48 + n) else Char.ofNat (87 + n)

/-- A character inside quotes. Quotes, backslashes and controls are escaped. -/
def escape (c : Char) : List Char :=
  if c = '"' then ['\\', '"']
  else if c = '\\' then ['\\', '\\']
  else if c.toNat < 32 then
    ['\\', 'u', '0', '0', hexDigit (c.toNat / 16), hexDigit (c.toNat % 16)]
  else [c]

def pushAll (text : String) (cs : List Char) : String := cs.foldl String.push text

def pushQuoted (text : String) (content : String) : String :=
  (content.foldl (fun text c => pushAll text (escape c)) (text.push '"')).push '"'

/-- A number with six decimal places, or `null` for one that is not finite. -/
def floatText (x : Float) : String :=
  if x.isFinite then Decimal.fixed 6 x else "null"

mutual

def pushValue (text : String) : Json → String
  | .null => text ++ "null"
  | .bool true => text ++ "true"
  | .bool false => text ++ "false"
  | .int value => text ++ toString value
  | .float value => text ++ floatText value
  | .string value => pushQuoted text value
  | .array elements => (pushElements (text.push '[') true elements).push ']'
  | .object fields => (pushFields (text ++ "\x7b") true fields) ++ "\x7d"

/-- Append the elements of a list, with commas between them. -/
def pushElements (text : String) (first : Bool) : List Json → String
  | [] => text
  | element :: rest =>
    let text := if first then text else text.push ','
    pushElements (pushValue text element) false rest

/-- Append the fields of an object, with commas between them. -/
def pushFields (text : String) (first : Bool) : List (String × Json) → String
  | [] => text
  | (name, value) :: rest =>
    let text := if first then text else text.push ','
    pushFields (pushValue ((pushQuoted text name).push ':') value) false rest

end

/-- A value as text on one line. -/
def render (value : Json) : String := pushValue "" value

end Json

end JourneyPlanner
