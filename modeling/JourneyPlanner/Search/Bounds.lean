import JourneyPlanner.Search.Rounds

/-!
# Lower bounds

Bounds below the duration, the rides and the cost from every stop to the end of a search, found by
a search from there in the opposite direction that rides the fastest run of each pattern without
looking at the clock.

* `Bounds`: the bounds at every stop.
* `Bounds.summary`: the best bounds over the legs at the other end.
* `boundScheme`: the search. Slacks are left out. A ride is charged its boarding where the request
  boards it, except where a rule may let the traveller stay seated.
* `Network.bounds`: the bounds for a request.
-/

namespace JourneyPlanner

/-- Bounds at a stop: the least seconds and the least cost that remain, and the rides that
remain. They are found independently, so no single journey need attain all of them. -/
structure Bound where
  duration : Span
  /-- the transfers that remain after arriving at the stop on board, and so the rides from it -/
  transfers : Nat
  cost : Cost
deriving DecidableEq, Repr

/-- The best values found at a stop, over all arrivals and over those on board. -/
structure StopBound where
  duration : Span := unreached
  cost : Cost := unreached
  rideDuration : Span := unreached
  rideCost : Cost := unreached
  rides : Nat := 255
deriving DecidableEq, Repr, Inhabited

/-- The bounds at every stop. -/
structure Bounds where
  stops : Array StopBound
deriving DecidableEq, Repr

/-- The best bounds over some legs. -/
structure BoundSummary where
  duration : Span
  transfers : Nat
  reachable : Bool
deriving DecidableEq, Repr

namespace Bounds

/-- The bounds at a stop, if it has been reached. -/
def at? (bounds : Bounds) (stop : StopId) : Option Bound :=
  match bounds.stops[stop]? with
  | some b => if b.duration = unreached then none else some ⟨b.duration, b.rides, b.cost⟩
  | none => none

def reachedCount (bounds : Bounds) : Nat :=
  bounds.stops.countP fun b => b.duration ≠ unreached

/-- The summary after one more leg. The first ride is no transfer, unless the leg is one itself. -/
def addLeg (bounds : Bounds) (summary : BoundSummary) (leg : Connector) :
    Checked BoundSummary := do
  match bounds.at? leg.stop with
  | none => return summary
  | some b =>
    let duration ← word (b.duration + leg.duration)
    let transfers := if leg.onBoard then b.transfers else b.transfers - 1
    return ⟨min summary.duration duration, min summary.transfers transfers, true⟩

/-- The best bounds over the legs at the other end of the search. -/
def summary (bounds : Bounds) (legs : List Connector) : Checked BoundSummary :=
  legs.foldlM bounds.addLeg ⟨unreached, 255, false⟩

end Bounds

/-- The state of a search for bounds. -/
structure BoundState where
  stops : Array StopBound
  round : Nat
  touched : IndexSet
  reached : IndexSet
  ridden : IndexSet
deriving DecidableEq, Repr

/-- What a search for bounds needs to know. -/
structure BoundScene where
  direction : Direction
  tariff : Tariff
  rules : Option RuleIndex

/-- The ride of a pattern in a search for bounds. The values on board are relative to the offsets
of the fastest run where it was boarded. -/
structure BoundRide where
  fastest : FastestRun
  factor : Int
  rules : Option PatternRules
  onBoard : Option (Span × Cost)

namespace BoundState

def new (stopCount : Nat) : BoundState :=
  { stops := Array.replicate stopCount {}
    round := 0
    touched := .empty stopCount
    reached := .empty stopCount
    ridden := .empty stopCount }

/-- The state before the first round. What was found before is kept. -/
def start (_ : Time) (s : BoundState) : BoundState :=
  { s with
    round := 0
    touched := s.touched.clear
    reached := s.reached.clear
    ridden := s.ridden.clear }

/-- Arrive at a stop. A stop where nothing gets better is not touched. -/
def arrive (stop : StopId) (duration : Span) (cost : Cost) (onBoard : Bool) (s : BoundState) :
    BoundState :=
  match s.stops[stop]? with
  | none => s
  | some b =>
    let better := duration < b.duration || cost < b.cost
    let betterOnBoard := onBoard && (duration < b.rideDuration || cost < b.rideCost)
    if better || betterOnBoard then
      { s with
        stops := s.stops.setIfInBounds stop {
          duration := min b.duration duration
          cost := min b.cost cost
          rideDuration := if onBoard then min b.rideDuration duration else b.rideDuration
          rideCost := if onBoard then min b.rideCost cost else b.rideCost
          rides := min b.rides s.round }
        touched := s.touched.insert stop
        ridden := if betterOnBoard then s.ridden.insert stop else s.ridden }
    else s

def advance (round : Nat) (s : BoundState) : Bool × BoundState :=
  (!s.touched.isEmpty,
    { s with
      round
      reached := s.touched
      touched := s.touched.clear
      ridden := s.ridden.clear })

def bounds (s : BoundState) : Bounds := ⟨s.stops⟩

end BoundState

namespace BoundScene

/-- What a boarding at a position takes off the values on board. -/
def boardOffset (c : BoundScene) (run : FastestRun) (position : Nat) : Checked Span :=
  match c.direction with
  | .forward => do word (-(← fetch run.departures position))
  | .reverse => fetch run.arrivals position

/-- What an alighting at a position adds to the values on board. -/
def alightOffset (c : BoundScene) (run : FastestRun) (position : Nat) : Checked Span :=
  match c.direction with
  | .forward => fetch run.arrivals position
  | .reverse => do word (-(← fetch run.departures position))

/-- Before a pattern is ridden. The rules are those of the direction of the request. -/
def enter (c : BoundScene) (p : Pattern) (t : Timetable) : Checked BoundRide := do
  let rules ← match c.rules with
    | some index => (index.forPattern c.direction.opposite p.id).map some
    | none => pure none
  let fastest ← t.fastest
  return ⟨fastest, c.tariff.transitFactor fastest.reluctance, rules, none⟩

/-- The cost of the boarding that the request makes where this search alights. -/
def boardCost (c : BoundScene) (rules : Option PatternRules) (position : Nat) : Cost :=
  match rules with
  | some rules => if rules.staySeatedAt position then 0 else c.tariff.board
  | none => c.tariff.board

/-- Leave the fastest run. -/
def alight (c : BoundScene) (ride : BoundRide) (stop : StopId) (position : Nat)
    (s : BoundState) : Checked BoundState := do
  match ride.onBoard with
  | none => return s
  | some (duration, cost) =>
    let offset ← c.alightOffset ride.fastest position
    let duration ← word (duration + offset)
    let riding ← word (ride.factor * offset)
    let ridden ← word (cost + riding)
    let cost ← word (ridden + c.boardCost ride.rules position)
    return s.arrive stop duration cost true

/-- Board the fastest run. -/
def board (c : BoundScene) (s : BoundState) (arrival : StopId) (_ : StopId) (position : Nat)
    (ride : BoundRide) : Checked BoundRide := do
  let offset ← c.boardOffset ride.fastest position
  let b ← fetch s.stops arrival
  let duration ← word (b.duration + offset)
  let riding ← word (ride.factor * offset)
  let cost ← word (b.cost + riding)
  let onBoard := match ride.onBoard with
    | some (otherDuration, otherCost) => (min otherDuration duration, min otherCost cost)
    | none => (duration, cost)
  return { ride with onBoard := some onBoard }

def walk (c : BoundScene) (stop : StopId) (walks : List Walk) (s : BoundState) :
    Checked BoundState := do
  let b ← fetch s.stops stop
  if b.rideDuration = unreached then return s
  walks.foldlM (fun s walk => do
    let duration ← word (b.rideDuration + walk.duration)
    let cost ← word (b.rideCost + (← c.tariff.walkCost walk.duration))
    return s.arrive (c.direction.walkTarget walk) duration cost false) s

end BoundScene

def boundScheme (c : BoundScene) : Scheme BoundState BoundRide StopId where
  start := BoundState.start
  seed leg _ s := return s.arrive leg.stop leg.duration leg.cost false
  seedOnBoard leg _ s := return s.arrive leg.stop leg.duration leg.cost true
  advance round s := return s.advance round
  reached := BoundState.reached
  ridden := BoundState.ridden
  enter := c.enter
  alight := c.alight
  boardable s stop :=
    return match s.stops[stop]? with
      | some b => if b.duration = unreached then [] else [stop]
      | none => []
  board := c.board
  walk := c.walk
  finish s := return s

/-- Bounds from every stop to the end of a request, or from its start for a search that goes back
in time. -/
def Network.bounds (net : Network) (request : Request) (tariff : Tariff) : Checked Bounds := do
  let direction := request.direction.opposite
  let course : Course := ⟨net, direction, request.maxRounds, request.searchEgress⟩
  let scheme := boundScheme ⟨direction, tariff, request.rules net⟩
  let progress ← run scheme course .unlimited (.new course (.new net.stopCount)) [0]
  return progress.state.bounds

end JourneyPlanner
