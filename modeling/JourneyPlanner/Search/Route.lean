import JourneyPlanner.Search.Labels

/-!
# Routes

From labels to itineraries, and the complete search of a request.

* `LabelScene.itineraries`: the itineraries of all finishes. The labels from a finish back to the
  leg it starts with are followed; a search that goes back in time has met them in the order of
  the traveller.
* `Itinerary.criteria`: what is compared between itineraries.
* `Network.route`: the best itineraries of a request. The start times may be divided into chunks
  that are searched independently.
-/

namespace JourneyPlanner

/-- The labels from an arrival back to the leg of the request with which the search started. -/
structure Trail where
  /-- the leg at the start of the search -/
  access : Connector
  /-- when the search arrived by that leg -/
  accessTime : Time
  /-- the parts between, the last one of the search in front -/
  legs : List Leg

namespace LabelScene

/-- A ride in the order of the traveller. -/
def realRide (c : LabelScene) (ride : SearchRide) (alightStop : StopId) : Ride :=
  match c.direction with
  | .forward =>
    { trip := ride.trip
      boardPosition := ride.boardPosition
      alightPosition := ride.alightPosition
      boardStop := ride.boardStop
      alightStop
      constraint := ride.constraint }
  | .reverse =>
    { trip := ride.trip
      boardPosition := ride.alightPosition
      alightPosition := ride.boardPosition
      boardStop := alightStop
      alightStop := ride.boardStop
      constraint := ride.constraint }

/-- A walk in the order of the traveller. -/
def realWalk (c : LabelScene) (source target : StopId) (duration : Span) : Stroll :=
  match c.direction with
  | .forward => .untimed source target duration
  | .reverse => .untimed target source duration

/-- The trail of a label. A label that does not come from an earlier one has none. -/
def trail? (c : LabelScene) (s : Labels) (id : LabelId) : Checked (Option Trail) := do
  let label ← s.label id
  match label.origin with
  | .access leg => return some ⟨leg, label.time, []⟩
  | .ride ride previous =>
    if previous < id then
      let leg := Leg.ride (c.realRide ride label.stop)
      return (← c.trail? s previous).map fun trail => { trail with legs := leg :: trail.legs }
    else return none
  | .walk source duration previous =>
    if previous < id then
      let leg := Leg.walk (c.realWalk source label.stop duration)
      return (← c.trail? s previous).map fun trail => { trail with legs := leg :: trail.legs }
    else return none
termination_by id

/-- Give every ride the constraint that was found with the ride before it. A search that goes back
in time finds the constraint on a change with the earlier ride, and it belongs to the later. -/
def delayConstraints (found : Constraint) : List Leg → List Leg
  | [] => []
  | .ride r :: rest => .ride { r with constraint := found } :: delayConstraints r.constraint rest
  | .walk stroll :: rest => .walk stroll :: delayConstraints found rest

/-- The itinerary of a finish, if its label has a trail. -/
def itinerary? (c : LabelScene) (s : Labels) (finish : Finish) : Checked (Option Itinerary) := do
  match ← c.trail? s finish.label with
  | none => return none
  | some trail =>
    match c.direction with
    | .forward =>
      let departure ← word (trail.accessTime - trail.access.duration)
      some <$> Itinerary.new trail.access trail.legs.reverse finish.leg c.slacks c.tariff departure
    | .reverse =>
      let last ← s.label finish.label
      let departure ← word (last.time - finish.leg.duration)
      let legs := delayConstraints .regular trail.legs
      some <$> Itinerary.new finish.leg legs trail.access c.slacks c.tariff departure

/-- The itineraries of all finishes, in their order. -/
def itineraries (c : LabelScene) (s : Labels) : Checked (List Itinerary) := do
  let found ← s.finishes.elements.mapM (c.itinerary? s)
  return found.filterMap id

end LabelScene

/-- The time of an itinerary that a search compares, its transfers as far as a byte goes, and its
cost. -/
def Itinerary.criteria (it : Itinerary) (d : Direction) : JourneyCriteria :=
  let time := match d with
    | .forward => it.endTime
    | .reverse => it.startTime
  ⟨time, min it.transferCount 255, it.cost⟩

namespace Network

/-- What a search for labels needs to know about a request. -/
def labelScene (net : Network) (request : Request) (tariff : Tariff) (bounds : Option Bounds) :
    LabelScene where
  direction := request.direction
  tariff
  slacks := request.slacks
  definitive := request.definitive
  rules := request.rules net
  services := net.servicesOn request.date
  bounds
  egress := request.searchEgress
  stopCount := net.stopCount

def labelCourse (net : Network) (request : Request) : Course :=
  ⟨net, request.direction, request.maxRounds, request.searchAccess⟩

def labelProgress (net : Network) (request : Request) : Progress Labels :=
  .new (net.labelCourse request) (.new net.stopCount request.maxRounds)

/-- The itineraries found from some start times, and the number of rounds it took. -/
def routeChunk (net : Network) (request : Request) (scene : LabelScene) (deadline : Deadline)
    (times : List Time) : Checked (List Itinerary × Nat) := do
  let progress ← run (labelScheme scene) (net.labelCourse request) deadline
    (net.labelProgress request) times
  return (← scene.itineraries progress.state, progress.rounds)

end Network

/-- The itineraries of a search, and what it took to find them. -/
structure RouteResult where
  itineraries : List Itinerary
  summary : BoundSummary
  iterations : Nat
  rounds : Nat

/-- Consecutive parts of a list, all of a given length but the last one. -/
def chunksOf {α : Type} (length : Nat) (xs : List α) : List (List α) :=
  if _h : xs = [] ∨ length = 0 then []
  else xs.take length :: chunksOf length (xs.drop length)
termination_by xs.length
decreasing_by
  cases xs with
  | nil => simp_all
  | cons x xs => simp; omega

/-- The start times of a request in as many chunks as it asks for, all of the same length but the
last one. -/
def Request.timeChunks (request : Request) (times : List Time) : List (List Time) :=
  let count := min (max request.chunks 1) (max times.length 1)
  if count ≤ 1 then [times] else chunksOf ((times.length + count - 1) / count) times

namespace Network

/-- The best itineraries of a request, by time, transfers and cost. If no leg of the request leads
to the end, no search is made. Of itineraries with the same criteria the one that was found first
is kept. -/
def routeWithin (net : Network) (request : Request) (deadline : Deadline) :
    Checked RouteResult := do
  let tariff ← Tariff.ofOptions request.costs
  deadline.check .bounds
  let bounds ← net.bounds request tariff
  let summary ← bounds.summary request.searchAccess
  let times ← request.startTimes
  if !summary.reachable then return ⟨[], summary, 0, 0⟩
  let scene := net.labelScene request tariff (some bounds)
  let results ← (request.timeChunks times).mapM (net.routeChunk request scene deadline)
  let d := request.direction
  let front := Front.ofList d.dominatesJourney <|
    results.flatMap fun (itineraries, _) => itineraries.map fun it => (it, it.criteria d)
  let rounds := (results.map (·.2)).foldl max 0
  return ⟨front.elements, summary, times.length, rounds⟩

/-- The best itineraries of a request, without a time budget. -/
def route (net : Network) (request : Request) : Checked RouteResult :=
  net.routeWithin request .unlimited

end Network

end JourneyPlanner
