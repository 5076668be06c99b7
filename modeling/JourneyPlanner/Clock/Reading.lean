import JourneyPlanner.Clock.Time
import JourneyPlanner.Text.Blank

/-!
# Reading clock times

The numbers of hours, minutes and seconds of a text such as `10:15` or `25:00:30`.

* `readClock`: the seconds that a text stands for.
* `Time.parse`: a schedule time, whose seconds may be left out.
-/

namespace JourneyPlanner

/-- Why a text is not a time. -/
inductive ClockError where
  /-- the text has not the form `hh:mm:ss` -/
  | malformed (text : String)
  /-- the text stands for a number of seconds beyond a word -/
  | overflow
deriving DecidableEq, Repr

def ClockError.message : ClockError → String
  | .malformed text =>
    "Unable to parse `" ++ text ++ "` as a time. Expected format is hh:mm:ss"
  | .overflow => "overflow"

/-- A field of a time: an unsigned 32-bit numeral, taken as a signed word with the same bits. -/
def readClockField (field : List Char) : Option Int :=
  (Text.readNat 4294967295 field).map fun n => wrapWord n

/-- The seconds of `hours`, `minutes` and `seconds`, each step fitting a word. -/
def clockSeconds (hours minutes seconds : Int) : Checked Int := do
  let fromHours ← word (hours * 3600)
  let fromMinutes ← word (minutes * 60)
  let both ← word (fromHours + fromMinutes)
  word (both + seconds)

/-- The fields of a clock text: hours, minutes, and seconds unless they may be left out. -/
def readClockFields (secondsRequired : Bool) (text : String) : Option (Int × Int × Int) := do
  match ← (Text.split ':' (Text.trim text.toList)).mapM readClockField with
  | [hours, minutes] => if secondsRequired then none else some (hours, minutes, 0)
  | [hours, minutes, seconds] => some (hours, minutes, seconds)
  | _ => none

/-- The seconds that a text of the form `hh:mm:ss` stands for. Blanks around it are ignored, and
the minutes and the seconds are below sixty. -/
def readClock (secondsRequired : Bool) (text : String) : Except ClockError Int :=
  match readClockFields secondsRequired text with
  | some (hours, minutes, seconds) =>
    if minutes < 60 ∧ seconds < 60 then
      match clockSeconds hours minutes seconds with
      | .ok total => .ok total
      | .error _ => .error .overflow
    else .error (.malformed text)
  | none => .error (.malformed text)

/-- A schedule time written `hh:mm` or `hh:mm:ss`. -/
def Time.parse (text : String) : Except ClockError Time :=
  readClock false text

end JourneyPlanner
