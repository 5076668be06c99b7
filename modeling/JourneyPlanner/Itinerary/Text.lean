import JourneyPlanner.Itinerary.Basic

/-!
# Itineraries as text

* `Itinerary.toText`: one line with the numbers of stops and the names of trips.
* `Itinerary.describe`: one line with the names of stops and routes too.
-/

namespace JourneyPlanner

def Connector.mode (c : Connector) : String := if c.onBoard then "Ride" else "Walk"

namespace Ride

def times (ride : Ride) : Checked String := do
  let boarding ← Time.formatShort (← ride.boardTime)
  let alighting ← Time.formatShort (← ride.alightTime)
  return boarding ++ " " ++ alighting

end Ride

def walkText (duration : Span) : Checked String := do
  return "Walk " ++ (← Span.format duration)

namespace Leg

/-- A part of an itinerary, up to the stop that it reaches. -/
def toText : Leg → Checked String
  | .ride r => do return r.trip.name ++ " " ++ (← r.times) ++ " ~ " ++ toString r.alightStop
  | .walk stroll => do return (← walkText stroll.duration) ++ " ~ " ++ toString stroll.target

/-- A part of an itinerary, up to the name of the stop that it reaches. -/
def describe (net : Network) : Leg → Checked String
  | .ride r => do
    let route ← net.routeName r.trip.route
    let times ← r.times
    let stop ← net.stopName r.alightStop
    return route ++ " " ++ r.trip.name ++ " " ++ times ++ " ~ " ++ stop
  | .walk stroll => do
    let walk ← walkText stroll.duration
    let stop ← net.stopName stroll.target
    return walk ++ " ~ " ++ stop

end Leg

namespace Itinerary

/-- When an itinerary starts and ends, how long it takes, its transfers and its cost. -/
def summary (it : Itinerary) : Checked String := do
  let start ← Time.format it.startTime
  let stop ← Time.format it.endTime
  let length ← Span.format (← it.duration)
  return start ++ " " ++ stop ++ " " ++ length ++ " Tx" ++ toString it.transferCount ++
    " C" ++ toString it.cost

/-- An itinerary by the numbers of its stops. -/
def toText (it : Itinerary) : Checked String := do
  let access ← walkText it.access.leg.duration
  let legs ← it.legs.mapM Leg.toText
  let egress ← walkText it.egress.leg.duration
  let parts := (access ++ " ~ " ++ toString it.access.leg.stop) :: legs
  return String.intercalate " ~ " (parts ++ [egress]) ++ " [" ++ (← it.summary) ++ "]"

/-- An itinerary by the names of its stops and routes. -/
def describe (net : Network) (it : Itinerary) : Checked String := do
  let access ← Span.format it.access.leg.duration
  let first ← net.stopName it.access.leg.stop
  let legs ← it.legs.mapM (Leg.describe net)
  let egress ← Span.format it.egress.leg.duration
  let parts := (it.access.leg.mode ++ " " ++ access ++ " ~ " ++ first) :: legs
  return String.intercalate " ~ " (parts ++ [it.egress.leg.mode ++ " " ++ egress]) ++
    " [" ++ (← it.summary) ++ "]"

end Itinerary

end JourneyPlanner
