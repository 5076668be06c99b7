import JourneyPlanner.Calendar.Date
import JourneyPlanner.Text.Blank

/-!
# Reading dates

Dates written `YYYY-MM-DD` and moments written `YYYYMMDDThhmmss`.

Every number may have blanks in front of it. A year without a sign has at most four digits, one
with a sign as many as follow; the other numbers have one or two digits.
-/

namespace JourneyPlanner

namespace CalendarText

/-- A number of at most `width` digits at the start of a text, and the rest of it. -/
def number (width : Nat) (cs : List Char) : Option (Nat × List Char) := do
  let shown := (cs.take width).takeWhile fun c => (Text.digitValue? c).isSome
  some (← Text.value? shown, cs.drop shown.length)

/-- A number of one or two digits, after blanks. -/
def field (cs : List Char) : Option (Nat × List Char) :=
  number 2 (Text.dropBlank cs)

/-- A year: four digits at most, or a sign and any number of digits, after blanks. -/
def year (cs : List Char) : Option (Int × List Char) :=
  match Text.dropBlank cs with
  | '-' :: rest => (number rest.length rest).map fun (n, rest) => (-(n : Int), rest)
  | '+' :: rest => (number rest.length rest).map fun (n, rest) => ((n : Int), rest)
  | rest => (number 4 rest).map fun (n, rest) => ((n : Int), rest)

/-- The rest of a text that starts with a given character. -/
def literal (expected : Char) : List Char → Option (List Char)
  | [] => none
  | c :: cs => if c = expected then some cs else none

end CalendarText

open CalendarText

/-- A date written `YYYY-MM-DD`, or nothing for any other text. -/
def Date.parse? (text : String) : Option Date := do
  let (y, cs) ← CalendarText.year text.toList
  let (m, cs) ← field (← literal '-' cs)
  let (d, cs) ← field (← literal '-' cs)
  if cs.isEmpty then Date.ofCivil? y m d else none

/-- Why a text is not a moment. -/
structure MomentError where
  text : String
deriving DecidableEq, Repr

def MomentError.message (e : MomentError) : String :=
  "Unable to parse " ++ e.text ++ " as a datetime. Expected format is 20190628T163215"

/-- The fields of a moment written `YYYYMMDDThhmmss`. A sixtieth second, as in a minute with a leap
second, counts as the one before it. -/
def Moment.parse? (text : String) : Option Moment := do
  let (y, cs) ← CalendarText.year text.toList
  let (m, cs) ← field cs
  let (d, cs) ← field cs
  let (hour, cs) ← field (← literal 'T' cs)
  let (minute, cs) ← field cs
  let (second, cs) ← field cs
  let date ← Date.ofCivil? y m d
  if cs.isEmpty ∧ hour < 24 ∧ minute < 60 ∧ second ≤ 60 then
    some ⟨date, hour * 3600 + minute * 60 + min second 59⟩
  else none

/-- A moment written `YYYYMMDDThhmmss`. -/
def Moment.parse (text : String) : Except MomentError Moment :=
  match Moment.parse? text with
  | some moment => .ok moment
  | none => .error ⟨text⟩

/-- Whether the moment of a request is its departure or its arrival. -/
inductive Occasion where
  | departure
  | arrival
deriving DecidableEq, Repr

def Occasion.name : Occasion → String
  | .departure => "departure"
  | .arrival => "arrival"

def Occasion.ofName? (name : String) : Option Occasion :=
  if name = "departure" then some .departure
  else if name = "arrival" then some .arrival
  else none

def Occasion.unknownMessage (name : String) : String :=
  "Bad datetime_represent : `" ++ name ++ "`"

end JourneyPlanner
