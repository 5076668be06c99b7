import JourneyPlanner.Calendar.Reading
import JourneyPlanner.Itinerary.Journey
import JourneyPlanner.Refinement.Choice
import JourneyPlanner.Settings.Basic

/-!
# Planner

Journeys for a question in terms of the calendar and of stop names.

* `Query`: the question.
* `Query.toRequest`: the request that the question stands for. Unknown stops are left out.
* `Query.answer`, `Query.journeys`: the itineraries found, and the same as journeys.
-/

namespace JourneyPlanner

/-- The direction of a search for an occasion: forward from a departure, back from an arrival. -/
def Occasion.direction : Occasion → Direction
  | .departure => .forward
  | .arrival => .reverse

/-- A question to the planner. -/
structure Query where
  moment : Moment
  occasion : Occasion
  /-- stops near the origin, with the walks to them -/
  departures : List (String × Duration)
  /-- stops near the destination, with the walks from them -/
  arrivals : List (String × Duration)

/-- Why the planner has no answer. -/
inductive PlanError where
  /-- no stop near the origin is known -/
  | noDepartureStop
  /-- no stop near the destination is known -/
  | noArrivalStop
  /-- the search ended without an answer -/
  | fault (fault : Fault)
deriving DecidableEq, Repr

def PlanError.message : PlanError → String
  | .noDepartureStop => "No valid departure stop among the provided ones."
  | .noArrivalStop => "No valid arrival stop among the provided ones."
  | .fault f => f.message

namespace Query

def lift {α : Type} (x : Checked α) : Except PlanError α := x.mapError .fault

def connectors (net : Network) (tariff : Tariff) (stops : List (String × Duration)) :
    Checked (List Connector) :=
  net.walkingConnectors tariff (stops.map fun (name, duration) => (name, duration.toTime))

/-- The request that a question stands for, with given settings. -/
def toRequest (net : Network) (settings : Settings) (query : Query) :
    Except PlanError Request := do
  let tariff ← lift (Tariff.ofOptions settings.costs)
  let access ← lift (connectors net tariff query.departures)
  if access.isEmpty then throw .noDepartureStop
  let egress ← lift (connectors net tariff query.arrivals)
  if egress.isEmpty then throw .noArrivalStop
  return settings.applyTo {
    date := query.moment.date
    direction := query.occasion.direction
    time := query.moment.second
    access
    egress }

/-- The itineraries that answer a question. -/
def answer (net : Network) (settings : Settings) (query : Query) :
    Except PlanError SearchResult := do
  lift (net.search (← query.toRequest net settings))

/-- The journeys that answer a question. -/
def journeys (net : Network) (settings : Settings) (query : Query) :
    Except PlanError (List Journey) := do
  let result ← query.answer net settings
  lift (result.itineraries.mapM fun scored =>
    Journey.ofItinerary net query.moment.date scored.itinerary)

end Query

end JourneyPlanner
