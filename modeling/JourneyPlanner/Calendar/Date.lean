import JourneyPlanner.Checked
import JourneyPlanner.Text.Numeral

/-!
# Calendar dates

Days of the Gregorian calendar, extended to all years, and moments within them.

* `Date.ofCivil?`: the date of a year, a month and a day, when there is one.
* `Date.dayNumber`, `Date.ofDayNumber`: dates numbered from 1970-01-01.
* `Moment.after`: the moment a number of seconds after the midnight that starts a date, provided
  that the calendar has it.
* `Date.toText`, `Moment.toText`, `Moment.toLine`: the forms in which they are shown.
-/

namespace JourneyPlanner

/-- A day of the calendar. -/
structure Date where
  year : Int
  month : Nat
  day : Nat
deriving DecidableEq, Repr

namespace Date

/-- Every fourth year is a leap year, except for those of centuries that are not a multiple of
four hundred. -/
def isLeapYear (year : Int) : Bool :=
  year % 4 = 0 && (year % 100 ≠ 0 || year % 400 = 0)

def daysInMonth (year : Int) (month : Nat) : Nat :=
  match month with
  | 2 => if isLeapYear year then 29 else 28
  | 4 | 6 | 9 | 11 => 30
  | _ => 31

def firstYear : Int := -262143

def lastYear : Int := 262142

def HasYear (year : Int) : Prop := firstYear ≤ year ∧ year ≤ lastYear

instance (year : Int) : Decidable (HasYear year) :=
  inferInstanceAs (Decidable (_ ∧ _))

/-- The date of a year, a month and a day, when the calendar has it. -/
def ofCivil? (year : Int) (month day : Nat) : Option Date :=
  if HasYear year ∧ 1 ≤ month ∧ month ≤ 12 ∧
      1 ≤ day ∧ day ≤ daysInMonth year month then
    some ⟨year, month, day⟩
  else none

/-- The number of days from 1970-01-01 to a date. Years are counted from March, so that the leap
day comes last, and in eras of 400 years, which all have 146097 days. -/
def dayNumber (d : Date) : Int :=
  let year := if d.month ≤ 2 then d.year - 1 else d.year
  let era := year / 400
  let yearOfEra := year % 400
  let monthFromMarch : Int := ((d.month + 9) % 12 : Nat)
  let dayOfYear := (153 * monthFromMarch + 2) / 5 + d.day - 1
  era * 146097 + yearOfEra * 365 + yearOfEra / 4 - yearOfEra / 100 + dayOfYear - 719468

/-- The date that many days after 1970-01-01. -/
def ofDayNumber (n : Int) : Date :=
  let shifted := n + 719468
  let era := shifted / 146097
  let dayOfEra := shifted % 146097
  let yearOfEra := (dayOfEra - dayOfEra / 1460 + dayOfEra / 36524 - dayOfEra / 146096) / 365
  let dayOfYear := dayOfEra - (365 * yearOfEra + yearOfEra / 4 - yearOfEra / 100)
  let monthFromMarch := (5 * dayOfYear + 2) / 153
  let month := if monthFromMarch < 10 then monthFromMarch + 3 else monthFromMarch - 9
  let year := yearOfEra + era * 400 + (if month ≤ 2 then 1 else 0)
  ⟨year, month.toNat, (dayOfYear - (153 * monthFromMarch + 2) / 5 + 1).toNat⟩

/-- A year in four digits, with a sign when it needs more or comes before year zero. -/
def yearDigits (year : Int) : List Char :=
  let shown := Text.digits year.natAbs
  let filled := List.replicate (4 - shown.length) '0' ++ shown
  if year < 0 then '-' :: filled else if year ≤ 9999 then filled else '+' :: filled

/-- A date as `YYYY-MM-DD`. -/
def toText (d : Date) : String :=
  String.ofList
    (yearDigits d.year ++ '-' :: Text.padded d.month ++ '-' :: Text.padded d.day)

/-- The English abbreviation of a month. -/
def monthName (month : Nat) : String :=
  match month with
  | 1 => "Jan" | 2 => "Feb" | 3 => "Mar" | 4 => "Apr" | 5 => "May" | 6 => "Jun"
  | 7 => "Jul" | 8 => "Aug" | 9 => "Sep" | 10 => "Oct" | 11 => "Nov" | _ => "Dec"

end Date

/-- A second of a calendar day. -/
structure Moment where
  date : Date
  /-- seconds since midnight, below 86400 -/
  second : Nat
deriving DecidableEq, Repr

namespace Moment

/-- The moment `seconds` after the midnight that starts `date`. Its year has to be one that dates
may have. -/
def after (date : Date) (seconds : Int) : Checked Moment :=
  let day := Date.ofDayNumber (date.dayNumber + seconds / 86400)
  if Date.HasYear day.year then .ok ⟨day, (seconds % 86400).toNat⟩ else .error .beyondCalendar

def secondsTo (a b : Moment) : Int :=
  (b.date.dayNumber - a.date.dayNumber) * 86400 + b.second - a.second

/-- The time of the day as `hh:mm:ss`. -/
def clock (m : Moment) : List Char :=
  Text.padded (m.second / 3600) ++ ':' :: Text.padded (m.second / 60 % 60) ++
    ':' :: Text.padded (m.second % 60)

/-- A moment as `YYYY-MM-DDThh:mm:ss`. -/
def toText (m : Moment) : String :=
  m.date.toText ++ String.ofList ('T' :: m.clock)

/-- A moment as `hh:mm:ss DD-Mon-YY`. -/
def toLine (m : Moment) : String :=
  String.ofList (m.clock ++ ' ' :: Text.padded m.date.day ++ ['-']) ++
    Date.monthName m.date.month ++
    String.ofList ('-' :: Text.padded (m.date.year % 100).toNat)

end Moment

end JourneyPlanner
