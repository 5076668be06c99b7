import JourneyPlanner.Checked
import JourneyPlanner.Text.Numeral

/-!
# Schedule times

Times of a service day, in seconds, and the three ways in which they are shown.

* `Time`: seconds since the start of the service day.
* `Time.format`: `hh:mm:ss`.
* `Time.formatShort`: `hh:mm`, and the seconds only when there are some.
* `Span.format`: a length of time such as `1h5m` or `20s`.
-/

namespace JourneyPlanner

/-- Seconds since the start of the service day. A trip that runs past midnight has times above
86400, and a search that goes back in time meets negative ones. -/
abbrev Time := Int

/-- A signed length of time, in seconds. -/
abbrev Span := Int

/-- The value that stands for "not reached" in the tables of a search. -/
def unreached : Int := 999999999

/-- The hours, minutes and seconds of a number of seconds, in digits, each of at least two. -/
def clockDigits (seconds : Nat) : List Char :=
  Text.padded (seconds / 3600) ++ ':' :: Text.padded (seconds / 60 % 60) ++
    ':' :: Text.padded (seconds % 60)

/-- The hours and minutes of a number of seconds, in digits, each of at least two. -/
def clockDigitsShort (seconds : Nat) : List Char :=
  Text.padded (seconds / 3600) ++ ':' :: Text.padded (seconds / 60 % 60)

/-- A minus sign in front of a negative time. -/
def signDigits (time : Time) : List Char :=
  if time < 0 then ['-'] else []

/-- A time as `hh:mm:ss`. The hours are as many as needed. -/
def Time.format (time : Time) : Checked String := do
  let seconds ← magnitude time
  pure (String.ofList (signDigits time ++ clockDigits seconds.toNat))

/-- A time as `hh:mm`, followed by the seconds when they are not zero. -/
def Time.formatShort (time : Time) : Checked String := do
  let seconds ← magnitude time
  let shown :=
    if seconds.toNat % 60 = 0 then clockDigitsShort seconds.toNat else clockDigits seconds.toNat
  pure (String.ofList (signDigits time ++ shown))

/-- The parts of a length of time that are not zero, or `0s` when there is none. -/
def spanDigits (seconds : Nat) : List Char :=
  let part (n : Nat) (mark : Char) := if n = 0 then [] else Text.digits n ++ [mark]
  let hoursAndMinutes := part (seconds / 3600) 'h' ++ part (seconds / 60 % 60) 'm'
  if seconds % 60 = 0 ∧ hoursAndMinutes ≠ [] then hoursAndMinutes
  else hoursAndMinutes ++ Text.digits (seconds % 60) ++ ['s']

/-- A length of time without its sign, such as `1h5m`, `2m` or `20s`. -/
def Span.format (span : Span) : Checked String := do
  let seconds ← magnitude span
  pure (String.ofList (spanDigits seconds.toNat))

end JourneyPlanner
