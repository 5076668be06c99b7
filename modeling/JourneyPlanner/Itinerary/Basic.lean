import JourneyPlanner.Request

/-!
# Itineraries

Journeys from the origin to the destination, in the order in which a traveller makes them.

* `Ride`, `Stroll`, `Leg`: the parts of an itinerary between its two connectors.
* `Itinerary.new`: the itinerary made of given parts. Walks are moved next to the rides around
  them, and the departure as late as the first ride allows.
* `Itinerary.generalizedCost`: the cost of an itinerary, part by part.
-/

namespace JourneyPlanner

/-- A ride on one trip. -/
structure Ride where
  trip : Trip
  boardPosition : Nat
  alightPosition : Nat
  boardStop : StopId
  alightStop : StopId
  /-- what is known about the change to this trip -/
  constraint : Constraint
deriving DecidableEq, Repr

namespace Ride

/-- The departure of the trip where it is boarded. -/
def boardTime (ride : Ride) : Checked Time := ride.trip.departure ride.boardPosition

/-- The arrival of the trip where it is left. -/
def alightTime (ride : Ride) : Checked Time := ride.trip.arrival ride.alightPosition

def duration (ride : Ride) : Checked Span := do
  let alightTime ← ride.alightTime
  let boardTime ← ride.boardTime
  word (alightTime - boardTime)

/-- Whether two rides are on the same trip between the same positions. -/
def isSame (ride other : Ride) : Bool :=
  ride.trip.isSame other.trip && ride.boardPosition == other.boardPosition &&
    ride.alightPosition == other.alightPosition

end Ride

/-- A walk between two stops at a given time. -/
structure Stroll where
  source : StopId
  target : StopId
  duration : Span
  startTime : Time
  endTime : Time
deriving DecidableEq, Repr

/-- A walk between two stops whose time is not known yet. -/
def Stroll.untimed (source target : StopId) (duration : Span) : Stroll :=
  ⟨source, target, duration, 0, 0⟩

/-- A part of an itinerary between its connectors. -/
inductive Leg where
  | ride (ride : Ride)
  | walk (stroll : Stroll)
deriving DecidableEq, Repr

namespace Leg

def isRide : Leg → Bool
  | .ride _ => true
  | .walk _ => false

def ride? : Leg → Option Ride
  | .ride r => some r
  | .walk _ => none

end Leg

structure TimedConnector where
  leg : Connector
  startTime : Time
  endTime : Time
deriving DecidableEq, Repr

/-- A journey from the origin to the destination. -/
structure Itinerary where
  access : TimedConnector
  legs : List Leg
  egress : TimedConnector
  cost : Cost
deriving DecidableEq, Repr

namespace Itinerary

def rides (it : Itinerary) : List Ride := it.legs.filterMap Leg.ride?

def rideCount (it : Itinerary) : Nat := it.rides.length

/-- The number of transfers: each ride after the first one, connectors on board being rides. -/
def transferCount (it : Itinerary) : Nat :=
  it.rideCount + it.access.leg.onBoard.toNat + it.egress.leg.onBoard.toNat - 1

def startTime (it : Itinerary) : Time := it.access.startTime

def endTime (it : Itinerary) : Time := it.egress.endTime

def duration (it : Itinerary) : Checked Span := word (it.endTime - it.startTime)

/-! ### Times -/

/-- Walks placed one after the other so that the last one ends at a time; with them the time at
which the first one starts. -/
def walksBefore (time : Time) : List Leg → Checked (List Leg × Time)
  | [] => pure ([], time)
  | .walk stroll :: rest => do
    let (rest, endTime) ← walksBefore time rest
    let startTime ← word (endTime - stroll.duration)
    return (.walk { stroll with startTime, endTime } :: rest, startTime)
  | .ride r :: rest => do
    let (rest, startTime) ← walksBefore time rest
    return (.ride r :: rest, startTime)

/-- Parts placed one after the other from a time on, each walk right after the part before it;
with them the time at which the last one is over, the slack after rides included. -/
def legsAfter (alightSlack : Span) (time : Time) : List Leg → Checked (List Leg × Time)
  | [] => pure ([], time)
  | .ride r :: rest => do
    let left ← word ((← r.alightTime) + alightSlack)
    let (rest, free) ← legsAfter alightSlack left rest
    return (.ride r :: rest, free)
  | .walk stroll :: rest => do
    let endTime ← word (time + stroll.duration)
    let (rest, free) ← legsAfter alightSlack endTime rest
    return (.walk { stroll with startTime := time, endTime } :: rest, free)

/-! ### Cost -/

/-- What is known along an itinerary while its cost is added up. -/
structure CostState where
  cost : Cost
  /-- whether nothing has been boarded yet -/
  first : Bool
  /-- when the traveller is at the stop, ready for the next part -/
  arrival : Time
  /-- when the last trip was left -/
  alighting : Time

/-- The cost after one more part. The wait before the first boarding is free, and after a
facilitated change it is counted from the alighting, without slack. -/
def addLegCost (tariff : Tariff) (slacks : Slacks) (state : CostState) :
    Leg → Checked CostState
  | .ride r => do
    let boardTime ← r.boardTime
    let since ←
      if state.first then word (boardTime - slacks.board)
      else pure (if r.constraint.isFacilitated then state.alighting else state.arrival)
    let boarding ← tariff.boardingCost state.first since r.boardStop boardTime r.trip r.constraint
    let boarded ← word (state.cost + boarding)
    let riding ← tariff.ridingCost 0 slacks.alight (← r.duration) r.trip r.alightStop
    let alighting ← r.alightTime
    return {
      cost := ← word (boarded + riding)
      first := false
      arrival := ← word (alighting + slacks.alight)
      alighting }
  | .walk stroll => do
    return { state with
      cost := ← word (state.cost + (← tariff.walkCost stroll.duration))
      arrival := stroll.endTime }

/-- The cost of an itinerary whose parts have their times. -/
def generalizedCost (tariff : Tariff) (slacks : Slacks) (access : TimedConnector)
    (legs : List Leg) (egress : Connector) : Checked Cost := do
  let state ← legs.foldlM (addLegCost tariff slacks)
    { cost := access.leg.cost
      first := !access.leg.onBoard
      arrival := access.endTime
      alighting := access.endTime }
  word (state.cost + egress.cost)

/-! ### Building -/

/-- The itinerary made of given parts. The walks before the first ride end when it has to be
boarded, and those after it start when they can. Without any ride the traveller leaves at
`departure`. -/
def new (access : Connector) (legs : List Leg) (egress : Connector) (slacks : Slacks)
    (tariff : Tariff) (departure : Time) : Checked Itinerary := do
  let before := legs.takeWhile fun leg => !leg.isRide
  let after := legs.dropWhile fun leg => !leg.isRide
  let (legs, accessEnd, free) ← match after with
    | .ride r :: _ => do
      let boarding ← word ((← r.boardTime) - slacks.board)
      let (before, accessEnd) ← walksBefore boarding before
      let (after, free) ← legsAfter slacks.alight accessEnd after
      pure (before ++ after, accessEnd, free)
    | _ => do
      let accessEnd ← word (departure + access.duration)
      let (legs, free) ← legsAfter slacks.alight accessEnd legs
      pure (legs, accessEnd, free)
  let access : TimedConnector := ⟨access, ← word (accessEnd - access.duration), accessEnd⟩
  let timedEgress : TimedConnector := ⟨egress, free, ← word (free + egress.duration)⟩
  return ⟨access, legs, timedEgress, ← generalizedCost tariff slacks access legs egress⟩

end Itinerary

end JourneyPlanner
