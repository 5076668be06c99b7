import JourneyPlanner.Itinerary.Basic

/-!
# Journeys on the calendar

An itinerary of a service day, told with calendar moments and names.

* `Section`: a ride, a walk or a wait.
* `Journey.ofItinerary`: the sections of an itinerary; the time left before a ride or a walk is
  a wait.
* `Journey.print`: a journey on several lines.
-/

namespace JourneyPlanner

structure VehicleSection where
  startMoment : Moment
  endMoment : Moment
  source : String
  target : String
  route : String
  trip : String
  boardPosition : Nat
  alightPosition : Nat
  /-- what is known about the change to this ride -/
  constraint : String
deriving DecidableEq, Repr

structure WalkSection where
  startMoment : Moment
  endMoment : Moment
  source : String
  target : String
deriving DecidableEq, Repr

structure WaitSection where
  startMoment : Moment
  endMoment : Moment
  stop : String
deriving DecidableEq, Repr

inductive Section where
  | vehicle (ride : VehicleSection)
  | walk (walk : WalkSection)
  | wait (wait : WaitSection)
deriving DecidableEq, Repr

/-- A journey told with moments and names. -/
structure Journey where
  departure : Moment
  arrival : Moment
  accessDuration : Span
  egressDuration : Span
  sections : List Section
  transfers : Nat
  cost : Cost
deriving DecidableEq, Repr

namespace Journey

/-- Where and when the traveller is while the sections are listed. -/
structure Whereabouts where
  time : Time
  stop : StopId

/-- The wait at a stop until a time, if any time is left. -/
def waitUntil (net : Network) (date : Date) (here : Whereabouts) (time : Time) :
    Checked (List Section) := do
  if here.time < time then
    let wait : WaitSection := {
      startMoment := ← Moment.after date here.time
      endMoment := ← Moment.after date time
      stop := ← net.stopName here.stop }
    return [.wait wait]
  else return []

/-- The sections of one part of an itinerary, and where the traveller is after it. -/
def legSections (net : Network) (date : Date) (here : Whereabouts) :
    Leg → Checked (List Section × Whereabouts)
  | .ride r => do
    let boardTime ← r.boardTime
    let wait ← waitUntil net date here boardTime
    let startMoment ← Moment.after date boardTime
    let alightTime ← r.alightTime
    let ride : VehicleSection := {
      startMoment
      endMoment := ← Moment.after date alightTime
      source := ← net.stopName r.boardStop
      target := ← net.stopName r.alightStop
      route := ← net.routeName r.trip.route
      trip := r.trip.name
      boardPosition := r.boardPosition
      alightPosition := r.alightPosition
      constraint := ← r.constraint.describe }
    return (wait ++ [.vehicle ride], ⟨alightTime, r.alightStop⟩)
  | .walk stroll => do
    let wait ← waitUntil net date here stroll.startTime
    let walk : WalkSection := {
      startMoment := ← Moment.after date stroll.startTime
      endMoment := ← Moment.after date stroll.endTime
      source := ← net.stopName stroll.source
      target := ← net.stopName stroll.target }
    return (wait ++ [.walk walk], ⟨stroll.endTime, stroll.target⟩)

/-- The sections of the parts of an itinerary. -/
def sectionsFrom (net : Network) (date : Date) (here : Whereabouts) :
    List Leg → Checked (List Section)
  | [] => pure []
  | leg :: rest => do
    let (sections, here) ← legSections net date here leg
    return sections ++ (← sectionsFrom net date here rest)

/-- The journey of an itinerary whose times count from the midnight that starts a date. -/
def ofItinerary (net : Network) (date : Date) (it : Itinerary) : Checked Journey := do
  let start : Whereabouts := ⟨it.access.endTime, it.access.leg.stop⟩
  let sections ← sectionsFrom net date start it.legs
  return {
    departure := ← Moment.after date it.startTime
    arrival := ← Moment.after date it.endTime
    accessDuration := it.access.leg.duration
    egressDuration := it.egress.leg.duration
    sections
    transfers := it.transferCount
    cost := it.cost }

def vehicles (j : Journey) : List VehicleSection :=
  j.sections.filterMap fun
    | .vehicle ride => some ride
    | _ => none

/-- The seconds from the departure to the arrival, as far as a word goes. -/
def totalDuration (j : Journey) : Span := clampWord (j.departure.secondsTo j.arrival)

/-- The seconds walked between stops. -/
def transferDuration (j : Journey) : Checked Span :=
  j.sections.foldlM (fun total part => match part with
    | .walk walk => word (total + clampWord (walk.startMoment.secondsTo walk.endMoment))
    | _ => pure total) 0

def rideLine (ride : VehicleSection) : String :=
  ride.route ++ " " ++ ride.trip ++ " from " ++ ride.source ++ " at " ++
    ride.startMoment.toLine ++ " to " ++ ride.target ++ " at " ++ ride.endMoment.toLine ++
    " (" ++ ride.constraint ++ ")"

/-- A journey on several lines, one for each ride after a summary. -/
def print (j : Journey) : Checked String := do
  let walked ← Span.format (← j.transferDuration)
  let access ← Span.format j.accessDuration
  let egress ← Span.format j.egressDuration
  let lines := [
    "*** New journey ***",
    "Departure : " ++ j.departure.toLine,
    "Arrival : " ++ j.arrival.toLine,
    "Transfer duration : " ++ walked,
    "Nb of vehicles : " ++ toString j.vehicles.length,
    "Fallback start " ++ access ++ ", end " ++ egress,
    "Generalized cost : " ++ toString j.cost] ++ j.vehicles.map rideLine
  return String.join (lines.map (· ++ "\n"))

end Journey

end JourneyPlanner
