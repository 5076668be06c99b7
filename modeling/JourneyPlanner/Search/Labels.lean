import JourneyPlanner.Itinerary.Basic
import JourneyPlanner.Search.Bounds
import JourneyPlanner.Front
import JourneyPlanner.Transfer.Boarding

/-!
# Labels

The search for all itineraries that are best in time, transfers and cost.

Every arrival at a stop is a label that knows the arrival it comes from. Labels are stored one
after the other and designated by their place, so that a label always comes from an earlier one.
For every round and stop a front holds the labels that are best there in time and cost.

* `Label`: an arrival at a stop.
* `StopCriteria`, `AboardCriteria`, `JourneyCriteria`: what is compared at a stop, on board of the
  trips of a pattern, and at the destination.
* `Labels`: the state of the search.
* `labelScheme`: the search.
-/

namespace JourneyPlanner

/-- The place of a label among all labels of a search. -/
abbrev LabelId := Nat

/-- A ride as a search makes it: positions and times are in its direction, without slack. -/
structure SearchRide where
  trip : Trip
  boardStop : StopId
  boardPosition : Nat
  alightPosition : Nat
  boardTime : Time
  alightTime : Time
  constraint : Constraint
deriving DecidableEq, Repr

/-- How an arrival came about. -/
inductive Origin where
  /-- by a leg of the request -/
  | access (leg : Connector)
  /-- by a ride after an earlier arrival -/
  | ride (ride : SearchRide) (previous : LabelId)
  /-- by a walk from the stop of an earlier arrival -/
  | walk (source : StopId) (duration : Span) (previous : LabelId)
deriving DecidableEq, Repr

namespace Origin

/-- Whether the traveller arrives on board of a vehicle. -/
def onBoard : Origin → Bool
  | .access leg => leg.onBoard
  | .ride .. => true
  | .walk .. => false

def previous? : Origin → Option LabelId
  | .access _ => none
  | .ride _ previous => some previous
  | .walk _ _ previous => some previous

end Origin

/-- An arrival at a stop. -/
structure Label where
  stop : StopId
  round : Nat
  iteration : Nat
  time : Time
  cost : Cost
  origin : Origin
deriving DecidableEq, Repr

def Label.onBoard (label : Label) : Bool := label.origin.onBoard

/-! ### Criteria -/

/-- What is compared at a stop. -/
structure StopCriteria where
  time : Time
  cost : Cost
  onBoard : Bool
deriving DecidableEq, Repr

/-- What is compared at the destination. -/
structure JourneyCriteria where
  time : Time
  transfers : Nat
  cost : Cost
deriving DecidableEq, Repr

/-- What is compared on board of the trips of a pattern. -/
structure AboardCriteria where
  rank : Nat
  /-- the cost at the boarding less that of riding since the origin of times, so that trips
  boarded at different positions can be compared -/
  relativeCost : Cost
  factor : Int
deriving DecidableEq, Repr

namespace Direction

/-- Arrivals at a stop: one on board is never worse for that, since only it can be followed by a
walk. -/
def dominatesAtStop (d : Direction) : Dominance StopCriteria := fun a b =>
  d.isBeforeOrEqual a.time b.time && a.cost ≤ b.cost && (a.onBoard || !b.onBoard)

/-- Journeys: time at the end of the search, transfers and cost. -/
def dominatesJourney (d : Direction) : Dominance JourneyCriteria := fun a b =>
  d.isBeforeOrEqual a.time b.time && a.transfers ≤ b.transfers && a.cost ≤ b.cost

/-- Trips on board: one that is met no later in the direction, and costs no more from now on. -/
def dominatesAboard (d : Direction) : Dominance AboardCriteria := fun a b =>
  a.factor == b.factor &&
    (match d with
      | .forward => a.rank ≤ b.rank
      | .reverse => b.rank ≤ a.rank) &&
    a.relativeCost ≤ b.relativeCost

end Direction

structure Boarded where
  previous : LabelId
  trip : Trip
  stop : StopId
  position : Nat
  time : Time
  /-- the cost of the previous arrival and of the boarding -/
  cost : Cost
  constraint : Constraint
deriving DecidableEq, Repr

/-- The end of a journey: an arrival and the leg that follows it. -/
structure Finish where
  label : LabelId
  leg : Connector
deriving DecidableEq, Repr

/-! ### The state of a search -/

/-- What a search needs to know, which does not change. -/
structure LabelScene where
  direction : Direction
  tariff : Tariff
  slacks : Slacks
  definitive : Bool
  rules : Option RuleIndex
  /-- the services that run -/
  services : List ServiceId
  /-- bounds from every stop to the end, when labels that cannot lead to a better journey are to
  be left out -/
  bounds : Option Bounds
  /-- the legs where the search ends -/
  egress : List Connector
  stopCount : Nat

/-- The labels of a search and what refers to them. -/
structure Labels where
  arena : Array Label
  /-- for every round and stop, the best labels -/
  fronts : Array (Array (Front LabelId StopCriteria))
  round : Nat
  iteration : Nat
  touched : IndexSet
  reached : IndexSet
  ridden : IndexSet
  finishes : Front Finish JourneyCriteria

/-- What is on board while a pattern is ridden. -/
structure Aboard where
  timetable : Timetable
  rules : Option RuleSearch
  front : Front Boarded AboardCriteria

namespace Labels

/-- The state before any label, for a number of stops and of rounds. -/
def new (stopCount maxRounds : Nat) : Labels :=
  { arena := #[]
    fronts := Array.replicate (maxRounds + 1) (Array.replicate stopCount .empty)
    round := 0
    iteration := 0
    touched := .empty stopCount
    reached := .empty stopCount
    ridden := .empty stopCount
    finishes := .empty }

/-- The label at a place, which has to exist. -/
def label (s : Labels) (id : LabelId) : Checked Label := fetch s.arena id

/-- The best labels of a round at a stop, which have to exist. -/
def front (s : Labels) (round : Nat) (stop : StopId) : Checked (Front LabelId StopCriteria) := do
  fetch (← fetch s.fronts round) stop

/-- The labels of a round and the current iteration at a stop, with their places. -/
def current (s : Labels) (round : Nat) (stop : StopId) : Checked (List (LabelId × Label)) := do
  let front ← s.front round stop
  let labels ← front.elements.mapM fun id => do return (id, ← s.label id)
  return labels.filter fun (_, label) => label.iteration == s.iteration

/-- The state before the first round of an iteration. The labels of earlier iterations remain. -/
def start (_ : Time) (s : Labels) : Labels :=
  { s with
    iteration := s.iteration + 1
    round := 0
    touched := s.touched.clear
    reached := s.reached.clear
    ridden := s.ridden.clear }

/-- The state with one more label, which takes the place of those that it is at least as good as
in its round. -/
def register (d : Direction) (label : Label) (s : Labels) : Labels :=
  let id := s.arena.size
  let criteria : StopCriteria := ⟨label.time, label.cost, label.onBoard⟩
  { s with
    arena := s.arena.push label
    fronts := s.fronts.modify s.round fun stops => stops.modify label.stop fun front =>
      front.replace d.dominatesAtStop id criteria
    touched := s.touched.insert label.stop
    ridden := if label.onBoard then s.ridden.insert label.stop else s.ridden }

/-- The ride that led to a label, possibly followed by a walk, and the stop where it ended. -/
def lastRide (s : Labels) (label : Label) : Checked (Option (SearchRide × StopId)) := do
  match label.origin with
  | .access _ => return none
  | .ride ride _ => return some (ride, label.stop)
  | .walk _ _ previous =>
    let before ← s.label previous
    match before.origin with
    | .ride ride _ => return some (ride, before.stop)
    | _ => return none

end Labels

namespace LabelScene

/-! ### Arriving -/

/-- Whether no journey through an arrival can be better than those already found. A stop without
bounds leads nowhere. -/
def isHopeless (c : LabelScene) (s : Labels) (stop : StopId) (time : Time) (cost : Cost) :
    Checked Bool := do
  match c.bounds with
  | none => return false
  | some bounds =>
    match bounds.at? stop with
    | none => return true
    | some b =>
      if s.finishes.isEmpty then return false
      let time ← c.direction.plus time b.duration
      let transfers := min (s.round + b.transfers) 255 - 1
      let cost ← word (cost + b.cost)
      return s.finishes.covers c.direction.dominatesJourney ⟨time, transfers, cost⟩

/-- Whether a label of the current round or an earlier one is at least as good as an arrival. -/
def isCovered (c : LabelScene) (s : Labels) (stop : StopId) (criteria : StopCriteria) :
    Checked Bool :=
  (List.range (s.round + 1)).anyM fun round => do
    return (← s.front round stop).covers c.direction.dominatesAtStop criteria

/-- Arrive at a stop in the current round, unless the arrival is covered or hopeless. Stops outside
the network are never reached. -/
def arrive (c : LabelScene) (stop : StopId) (time : Time) (cost : Cost) (origin : Origin)
    (s : Labels) : Checked Labels := do
  if c.stopCount ≤ stop then return s
  if ← c.isCovered s stop ⟨time, cost, origin.onBoard⟩ then return s
  if ← c.isHopeless s stop time cost then return s
  return s.register c.direction ⟨stop, s.round, s.iteration, time, cost, origin⟩

/-- Arrive by a leg of the request, `start` being when it is taken. -/
def seed (c : LabelScene) (leg : Connector) (start : Time) (s : Labels) : Checked Labels := do
  let time ← c.direction.plus start leg.duration
  c.arrive leg.stop time leg.cost (.access leg) s

/-! ### Boarding -/

/-- When a trip can be boarded after an arrival, no rule being known. -/
def earliestBoarding (c : LabelScene) (label : Label) : Checked Time := do
  let before := c.slacks.beforeBoarding c.direction
  let slack ← if label.round = 0 then pure before else word (before + c.slacks.transfer)
  c.direction.plus label.time slack

def runs (c : LabelScene) (trip : Trip) : Bool := c.services.contains trip.service

/-- Since when a traveller waits for a trip: not at all before the first boarding, and since the
end of the ride before a facilitated change. -/
def waitStart (c : LabelScene) (label : Label) (boardTime : Time) (constraint : Constraint)
    (rideEnd : Option Time) : Checked Time :=
  if label.round = 0 then c.direction.minus boardTime (c.slacks.beforeBoarding c.direction)
  else
    match rideEnd with
    | some rideEnd => pure (if constraint.isFacilitated then rideEnd else label.time)
    | none => pure label.time

/-- Board a trip after an arrival. `rideEnd` is when the ride before a change under a rule ended. -/
def boardTrip (c : LabelScene) (id : LabelId) (label : Label) (stop : StopId) (position : Nat)
    (ranked : Nat × Trip) (constraint : Constraint) (rideEnd : Option Time)
    (aboard : Aboard) : Checked Aboard := do
  let (rank, trip) := ranked
  let time ← c.direction.boardTime trip position
  let since ← c.waitStart label time constraint rideEnd
  let boarding ←
    c.tariff.boardingCost (label.round == 0) since stop time trip constraint
  let cost ← word (label.cost + boarding)
  let factor := c.tariff.transitFactor trip.reluctance
  let ridden ← word (factor * (← c.direction.plus 0 time))
  let criteria : AboardCriteria := ⟨rank, ← word (cost - ridden), factor⟩
  let boarded : Boarded := ⟨id, trip, stop, position, time, cost, constraint⟩
  return { aboard with front := aboard.front.add c.direction.dominatesAboard boarded criteria }

/-- Board under the rules about the change, if they settle it. -/
def boardByRule (c : LabelScene) (s : Labels) (id : LabelId) (label : Label) (stop : StopId)
    (position : Nat) (aboard : Aboard) : Checked (Option Aboard) := do
  match aboard.rules with
  | none => return none
  | some rules =>
    if !rules.rules.existAt position then return none
    match ← s.lastRide label with
    | none => return none
    | some (ride, rideStop) =>
      let change : Change := {
        source := ride.trip
        sourceStop := rideStop
        sourcePosition := ride.alightPosition
        arrival := ride.alightTime
        walk := match label.origin with
          | .walk _ duration _ => duration
          | _ => 0
        earliest := ← c.earliestBoarding label
        position }
      match ← rules.find aboard.timetable change c.runs with
      | none => return none
      | some found =>
        if found.constraint.isNotAllowed then return some aboard
        c.boardTrip id label stop position (found.rank, found.trip) found.constraint
          (some ride.alightTime) aboard

/-- Board the first trip that runs, when no rule settles the change. -/
def boardRegular (c : LabelScene) (id : LabelId) (label : Label) (stop : StopId)
    (position : Nat) (aboard : Aboard) : Checked Aboard := do
  let earliest ← c.earliestBoarding label
  match ← aboard.timetable.bestTrip c.direction c.runs earliest position with
  | none => return aboard
  | some ranked => c.boardTrip id label stop position ranked .regular none aboard

/-- Board after an arrival, under the rules about the change or else regularly. -/
def board (c : LabelScene) (s : Labels) (id : LabelId) (stop : StopId) (position : Nat)
    (aboard : Aboard) : Checked Aboard := do
  let label ← s.label id
  match ← c.boardByRule s id label stop position aboard with
  | some aboard => return aboard
  | none => c.boardRegular id label stop position aboard

/-! ### Riding and walking -/

/-- Nothing on board, before a pattern is ridden. -/
def enter (c : LabelScene) (p : Pattern) (t : Timetable) : Checked Aboard := do
  let rules ← match c.rules with
    | some index => (index.boardingSearch c.direction p.id c.definitive).map some
    | none => pure none
  return ⟨t, rules, .empty⟩

/-- Leave a trip on board. -/
def alightTrip (c : LabelScene) (stop : StopId) (position : Nat) (s : Labels)
    (boarded : Boarded) : Checked Labels := do
  let slack := c.slacks.afterAlighting c.direction
  let alightTime ← c.direction.alightTime boarded.trip position
  let time ← c.direction.plus alightTime slack
  let span ← c.direction.elapsed boarded.time alightTime
  let cost ← c.tariff.ridingCost boarded.cost slack span boarded.trip stop
  let ride : SearchRide := {
    trip := boarded.trip
    boardStop := boarded.stop
    boardPosition := boarded.position
    alightPosition := position
    boardTime := boarded.time
    alightTime
    constraint := boarded.constraint }
  c.arrive stop time cost (.ride ride boarded.previous) s

/-- Leave the trips on board at a stop. -/
def alight (c : LabelScene) (aboard : Aboard) (stop : StopId) (position : Nat) (s : Labels) :
    Checked Labels :=
  aboard.front.elements.foldlM (c.alightTrip stop position) s

/-- Walk after an arrival. A walk that stays at its stop is left out. -/
def walkFrom (c : LabelScene) (stop : StopId) (walks : List Walk) (s : Labels)
    (arrival : LabelId × Label) : Checked Labels :=
  walks.foldlM (fun s walk => do
    let target := c.direction.walkTarget walk
    if target = stop then return s
    let time ← c.direction.plus arrival.2.time walk.duration
    let cost ← word (arrival.2.cost + (← c.tariff.walkCost walk.duration))
    c.arrive target time cost (.walk stop walk.duration arrival.1) s) s

/-- Walk from a stop, after the arrivals on board of the current round. -/
def walk (c : LabelScene) (stop : StopId) (walks : List Walk) (s : Labels) :
    Checked Labels := do
  let arrivals ← s.current s.round stop
  (arrivals.filter fun (_, label) => label.onBoard).foldlM (c.walkFrom stop walks) s

/-! ### Finishing -/

/-- The finishes with a leg after an arrival. Two walks do not follow each other. -/
def finishBy (c : LabelScene) (arrival : LabelId × Label)
    (finishes : Front Finish JourneyCriteria) (leg : Connector) :
    Checked (Front Finish JourneyCriteria) := do
  let (id, label) := arrival
  if !leg.onBoard && !label.onBoard then return finishes
  let rides := min (label.round + leg.onBoard.toNat) 255
  let time ← c.direction.plus label.time leg.duration
  let cost ← word (label.cost + leg.cost)
  return finishes.add c.direction.dominatesJourney ⟨id, leg⟩ ⟨time, rides - 1, cost⟩

/-- The finishes after the arrivals of the current round at a stop. -/
def finishAt (c : LabelScene) (s : Labels) (finishes : Front Finish JourneyCriteria)
    (stop : StopId) : Checked (Front Finish JourneyCriteria) := do
  let legs := c.egress.filter (·.stop == stop)
  if legs.isEmpty then return finishes
  let arrivals ← s.current s.round stop
  arrivals.foldlM (fun finishes arrival => legs.foldlM (c.finishBy arrival) finishes) finishes

/-- Finish after the arrivals of the current round. -/
def finish (c : LabelScene) (s : Labels) : Checked Labels := do
  let finishes ← s.touched.toList.foldlM (c.finishAt s) s.finishes
  return { s with finishes }

/-- Turn to a round. Before the first one, legs on board may end the journey at once. -/
def advance (c : LabelScene) (round : Nat) (s : Labels) : Checked (Bool × Labels) := do
  let s ← if round = 1 then c.finish s else pure s
  return (!s.touched.isEmpty,
    { s with
      round
      reached := s.touched
      touched := s.touched.clear
      ridden := s.ridden.clear })

end LabelScene

def labelScheme (c : LabelScene) : Scheme Labels Aboard LabelId where
  start := Labels.start
  seed := c.seed
  seedOnBoard := c.seed
  advance := c.advance
  reached := Labels.reached
  ridden := Labels.ridden
  enter := c.enter
  alight := c.alight
  boardable s stop := do return (← s.current (s.round - 1) stop).map (·.1)
  board := c.board
  walk := c.walk
  finish := c.finish

end JourneyPlanner
