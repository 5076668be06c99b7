import JourneyPlanner.Clock.Reading

/-!
# Durations

Lengths of time that are never negative, as they are written in settings.

* `Duration.parse`, `Duration.toText`: the form `hh:mm:ss`, read and written.
* `Duration.toTime`: the signed number that is combined with times.
* `Duration.describe`: the form for people, such as `1h02m03s`.
-/

namespace JourneyPlanner

/-- A length of time, in whole seconds, that fits an unsigned word. -/
structure Duration where
  seconds : UInt32
deriving DecidableEq, Repr

namespace Duration

def zero : Duration := ⟨0⟩

def ofSeconds (seconds : UInt32) : Duration := ⟨seconds⟩

def ofClock (hours minutes seconds : UInt32) : Checked Duration := do
  let fromMinutes ← unsigned (60 * minutes.toNat)
  let both ← unsigned (seconds.toNat + fromMinutes.toNat)
  let fromHours ← unsigned (3600 * hours.toNat)
  return ⟨← unsigned (both.toNat + fromHours.toNat)⟩

def add (a b : Duration) : Checked Duration := do
  return ⟨← unsigned (a.seconds.toNat + b.seconds.toNat)⟩

def scale (a : Duration) (count : UInt32) : Checked Duration := do
  return ⟨← unsigned (a.seconds.toNat * count.toNat)⟩

/-- The signed word with the bits of a duration. -/
def toTime (d : Duration) : Span := wrapWord d.seconds.toNat

/-- A duration as `hh:mm:ss`. -/
def toText (d : Duration) : String :=
  String.ofList (clockDigits d.seconds.toNat)

/-- A duration for people: the leading parts that are zero are left out. -/
def describe (d : Duration) : String :=
  let n := d.seconds.toNat
  let hours := n / 3600
  let minutes := n / 60 % 60
  String.ofList <|
    if hours ≠ 0 then
      Text.digits hours ++ 'h' :: Text.padded minutes ++ 'm' :: Text.padded (n % 60) ++ ['s']
    else if minutes ≠ 0 then
      Text.digits minutes ++ 'm' :: Text.padded (n % 60) ++ ['s']
    else Text.digits (n % 60) ++ ['s']

/-- A duration written `hh:mm:ss`. -/
def parse (text : String) : Except ClockError Duration :=
  (readClock true text).map fun total => ⟨UInt32.ofInt total⟩

end Duration

end JourneyPlanner
