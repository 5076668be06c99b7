import JourneyPlanner.Network.Trip

/-!
# Timetables

The trips of one pattern, none of which overtakes another, in the order in which they run.

* `Timetable.insert?`: a timetable with one more trip, when no trip overtakes another.
* `Timetable.firstBoardable`, `Timetable.lastAlighted`: the trip to take when waiting at a
  position.
* `Timetable.bestTrip`: the same in the direction of a search.
* `Timetable.fastest`: ride and dwell times that no trip beats.
-/

namespace JourneyPlanner

/-- The number of leading elements of a table that satisfy a condition, found by halving. The
elements that satisfy it come first. The search looks between `low` and `high`. -/
def countLeadingBetween (table : Array Int) (holds : Int → Bool) (low high : Nat) : Nat :=
  if low < high then
    let middle := low + (high - low) / 2
    if holds (table.getD middle 0) then countLeadingBetween table holds (middle + 1) high
    else countLeadingBetween table holds low middle
  else low
termination_by high - low

/-- The number of leading elements of a table that satisfy a condition. -/
def countLeading (table : Array Int) (holds : Int → Bool) : Nat :=
  countLeadingBetween table holds 0 table.size

/-- The place of the first time of a sorted column that is at or after a given one. The column is
halved only if its two ends do not tell the place. -/
def firstFrom? (column : Array Time) (time : Time) : Option Nat := do
  let last ← column.back?
  if last < time then none
  else if time ≤ column.getD 0 0 then some 0
  else some (countLeading column fun departure => departure < time)

/-- How many times of a sorted column are at or before a given one, unless all are after it. -/
def countUntil? (column : Array Time) (time : Time) : Option Nat := do
  let first ← column[0]?
  if time < first then none
  else some (countLeading column fun arrival => arrival ≤ time)

/-- The trips of one pattern. A trip departs from every position, and arrives there, no earlier
than the trips before it. The times at each position are kept in columns, so that the trip to
take at a given time is found by halving. -/
structure Timetable where
  pattern : PatternId
  trips : Array Trip
  /-- the departures of the trips, for every position -/
  departures : Array (Array Time)
  /-- the arrivals of the trips, for every position -/
  arrivals : Array (Array Time)
deriving DecidableEq, Repr

namespace Timetable

def empty (pattern : PatternId) (length : Nat) : Timetable :=
  ⟨pattern, #[], Array.replicate length #[], Array.replicate length #[]⟩

def length (t : Timetable) : Nat := t.departures.size

def size (t : Timetable) : Nat := t.trips.size

/-- Whether the times of a column are all at or after those of another one. -/
def noneEarlier (times others : Array Time) : Bool :=
  (times.toList.zip others.toList).all fun (time, other) => other ≤ time

/-- Whether a trip departs and arrives at every position at or after another one. -/
def isAfter (trip other : Trip) : Bool :=
  noneEarlier trip.departures other.departures && noneEarlier trip.arrivals other.arrivals

/-- The rank of a new trip: after those that depart from the first position no later. There is
none if the trip before it or the one after it would be overtaken somewhere. -/
def insertionRank? (t : Timetable) (trip : Trip) : Option Nat :=
  let first := trip.departures.getD 0 0
  let rank := countLeading (t.departures.getD 0 #[]) fun time => time ≤ first
  let afterPrevious :=
    if rank = 0 then true
    else match t.trips[rank - 1]? with
      | some previous => isAfter trip previous
      | none => true
  let beforeNext := match t.trips[rank]? with
    | some next => isAfter next trip
    | none => true
  if afterPrevious && beforeNext then some rank else none

/-- The columns with the times of a new trip at its rank. -/
def insertColumn (columns : Array (Array Time)) (rank : Nat) (times : Array Time) :
    Array (Array Time) :=
  columns.mapIdx fun position column => column.insertIdxIfInBounds rank (times.getD position 0)

/-- The timetable with a new trip, unless it would overtake another one or be overtaken. -/
def insert? (t : Timetable) (trip : Trip) : Option Timetable := do
  let rank ← t.insertionRank? trip
  some { t with
    trips := t.trips.insertIdxIfInBounds rank trip
    departures := insertColumn t.departures rank trip.departures
    arrivals := insertColumn t.arrivals rank trip.arrivals }

/-- The timetable of a pattern, each trip knowing the pattern and its rank. -/
def number (t : Timetable) (pattern : PatternId) : Timetable :=
  { t with
    pattern
    trips := t.trips.mapIdx fun rank trip => { trip with pattern, rank } }

/-! ### The trip to take -/

/-- The rank of the first trip that departs from a position at or after a time. -/
def firstBoardable (t : Timetable) (time : Time) (position : Nat) : Checked (Option Nat) := do
  let column ← fetch t.departures position
  return firstFrom? column time

/-- The rank of the first accepted trip that departs from a position at or after a time. -/
def firstAccepted (t : Timetable) (accepts : Trip → Bool) (time : Time) (position : Nat) :
    Checked (Option Nat) := do
  match ← t.firstBoardable time position with
  | none => return none
  | some first =>
    return ((t.trips.toList.drop first).findIdx? accepts).map (first + ·)

/-- The rank of the last accepted trip that arrives at a position at or before a time. -/
def lastAccepted (t : Timetable) (accepts : Trip → Bool) (time : Time) (position : Nat) :
    Checked (Option Nat) := do
  let column ← fetch t.arrivals position
  match countUntil? column time with
  | none => return none
  | some count =>
    return ((t.trips.toList.take count).reverse.findIdx? accepts).map (count - 1 - ·)

/-- The accepted trip that a search boards first at a position from a time on, with its rank. -/
def bestTrip (t : Timetable) (d : Direction) (accepts : Trip → Bool) (time : Time)
    (position : Nat) : Checked (Option (Nat × Trip)) := do
  let rank? ← match d with
    | .forward => t.firstAccepted accepts time position
    | .reverse => t.lastAccepted accepts time position
  match rank? with
  | none => return none
  | some rank => return some (rank, ← fetch t.trips rank)

/-- The trips with their ranks, the one that a direction meets first in front. -/
def ranked (t : Timetable) (d : Direction) : List (Nat × Trip) :=
  d.order ((List.range t.size).zip t.trips.toList)

end Timetable

/-! ### The fastest run -/

/-- The offsets of a run from the departure of its pattern, every ride between two neighbouring
positions and every dwell being as short as those of the fastest trip there. -/
structure FastestRun where
  arrivals : Array Span
  departures : Array Span
  reluctance : Nat
deriving DecidableEq, Repr

namespace Timetable

/-- The least value over the trips, zero when there is none. -/
def leastOver (t : Timetable) (value : Trip → Checked Span) : Checked Span := do
  let values ← t.trips.toList.mapM value
  return values.min?.getD 0

def leastDwell (t : Timetable) (position : Nat) : Checked Span :=
  t.leastOver fun trip => do
    let departure ← trip.departure position
    let arrival ← trip.arrival position
    word (departure - arrival)

def leastRide (t : Timetable) (position : Nat) : Checked Span :=
  t.leastOver fun trip => do
    let arrival ← trip.arrival (position + 1)
    let departure ← trip.departure position
    word (arrival - departure)

/-- The offsets at the positions after those already known, whose last departure is given. -/
def fastestFrom (t : Timetable) (departure : Span) :
    List Nat → Checked (List (Span × Span))
  | [] => pure []
  | position :: rest => do
    let arrival ← word (departure + (← t.leastRide position))
    let next ← word (arrival + (← t.leastDwell (position + 1)))
    return (arrival, next) :: (← t.fastestFrom next rest)

/-- The fastest run along the pattern. A ride on it is never longer than the same ride on a
trip of the timetable. -/
def fastest (t : Timetable) : Checked FastestRun := do
  let first ← t.leastDwell 0
  let offsets ← t.fastestFrom first (List.range (t.length - 1))
  return {
    arrivals := (0 :: offsets.map (·.1)).toArray
    departures := (first :: offsets.map (·.2)).toArray
    reluctance := (t.trips[0]?.map (·.reluctance)).getD 0 }

end Timetable

end JourneyPlanner
