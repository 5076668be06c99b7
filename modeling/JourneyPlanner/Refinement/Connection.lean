import JourneyPlanner.Itinerary.Text

/-!
# Connections

The ways to go from one trip to the next one.

* `Connection`: leaving a trip at a position and boarding another one, with the walk between.
* `ConnectionScene.isFeasible`: whether the time between is enough, given what is known about the
  change.
* `ConnectionScene.alternatives`: for each pair of consecutive rides, all connections that could
  take the place of the one that was found.
-/

namespace JourneyPlanner

/-- A trip at a position: its arrival where it is left, its departure where it is boarded. -/
structure TripCall where
  trip : Trip
  position : Nat
  stop : StopId
  time : Time
deriving DecidableEq, Repr

namespace TripCall

def arriving (trip : Trip) (position : Nat) (stop : StopId) : Checked TripCall := do
  return ⟨trip, position, stop, ← trip.arrival position⟩

def departing (trip : Trip) (position : Nat) (stop : StopId) : Checked TripCall := do
  return ⟨trip, position, stop, ← trip.departure position⟩

def toText (call : TripCall) : Checked String := do
  return call.trip.name ++ " " ++ toString call.stop ++ "@" ++ toString call.position ++ " " ++
    (← Time.formatShort call.time)

def describe (net : Network) (call : TripCall) : Checked String := do
  let stop ← net.stopName call.stop
  return call.trip.name ++ " " ++ stop ++ " " ++ (← Time.formatShort call.time)

end TripCall

/-- A way to go from one trip to another. -/
structure Connection where
  source : TripCall
  target : TripCall
  /-- the walk between the two stops, unless they are the same -/
  walk : Option Walk
  constraint : Constraint
deriving DecidableEq, Repr

namespace Connection

def walkDuration (c : Connection) : Span := (c.walk.map (·.duration)).getD 0

def isSameStop (c : Connection) : Bool := c.walk.isNone

/-- The seconds between the two trips that are not walked. -/
def waitTime (c : Connection) : Checked Span := do
  word ((← word (c.target.time - c.source.time)) - c.walkDuration)

/-- A connection given the texts of its two calls. -/
def compose (c : Connection) (source target : String) : Checked String := do
  let walk ← match c.walk with
    | some walk => pure (" ~ " ++ (← walkText walk.duration))
    | none => pure ""
  let constraint ←
    if c.constraint.isRegular then pure ""
    else pure (" (" ++ (← c.constraint.describe) ++ ")")
  return source ++ walk ++ " ~ " ++ target ++ constraint

/-- A connection by the numbers of its stops. -/
def toText (c : Connection) : Checked String := do
  c.compose (← c.source.toText) (← c.target.toText)

def describe (net : Network) (c : Connection) : Checked String := do
  c.compose (← c.source.describe net) (← c.target.describe net)

end Connection

/-- What decides on connections. -/
structure ConnectionScene where
  network : Network
  slacks : Slacks
  rules : Option RuleIndex
  /-- whether a least transfer time stands for all slacks -/
  definitive : Bool

namespace ConnectionScene

def ofRequest (net : Network) (request : Request) : ConnectionScene :=
  ⟨net, request.slacks, request.rules net, request.definitive⟩

/-- What is known about the change between two calls. -/
def constraintBetween (s : ConnectionScene) (source target : TripCall) : Constraint :=
  let known := s.rules.bind fun index =>
    index.constraintBetween source.trip source.position source.stop target.trip target.position
  known.getD .regular

/-- Whether the time between two calls is enough for a walk, given what is known about the
change. -/
def isFeasible (s : ConnectionScene) (source target : TripCall) (walk : Span)
    (constraint : Constraint) : Checked Bool := do
  let left ← word (source.time + s.slacks.alight)
  let walked ← word (left + walk)
  let changed ← word (walked + s.slacks.transfer)
  let regular ← word (changed + s.slacks.board)
  match constraint with
  | .notAllowed => return false
  | .guaranteed | .staySeated => return decide ((← word (source.time + walk)) ≤ target.time)
  | .minTime least =>
    let bound ← word (source.time + least)
    return decide ((if s.definitive then bound else max bound regular) ≤ target.time)
  | .regular => return decide (regular ≤ target.time)

/-- The connection that boards a ride at a position, if the stop is the one reached, boarding is
allowed and the time is enough. -/
def connectionAt? (s : ConnectionScene) (source : TripCall) (stop : StopId)
    (walk : Option Walk) (p : Pattern) (trip : Trip) (position : Nat) :
    Checked (Option Connection) := do
  if (← p.stopAt position) ≠ stop then return none
  if !(← p.canBoard position) then return none
  let target ← TripCall.departing trip position stop
  let constraint := s.constraintBetween source target
  let duration := (walk.map (·.duration)).getD 0
  if ← s.isFeasible source target duration constraint then
    return some ⟨source, target, walk, constraint⟩
  else return none

/-- The connections that board a ride at a stop, before it is left. -/
def connectionsTo (s : ConnectionScene) (source : TripCall) (stop : StopId)
    (walk : Option Walk) (next : Ride) : Checked (List Connection) := do
  let p ← s.network.pattern next.trip.pattern
  let found ← (List.range next.alightPosition).mapM
    (s.connectionAt? source stop walk p next.trip)
  return found.filterMap id

/-- The connections that leave a ride at a position: to the same stop first, then by the walks
from it. -/
def connectionsFrom (s : ConnectionScene) (ride next : Ride) (p : Pattern) (position : Nat) :
    Checked (List Connection) := do
  if !(← p.canAlight position) then return []
  let stop ← p.stopAt position
  let source ← TripCall.arriving ride.trip position stop
  let there ← s.connectionsTo source stop none next
  let walks ← s.network.walks .forward stop
  let byWalk ← (walks.filter fun walk => walk.target ≠ stop).mapM fun walk =>
    s.connectionsTo source walk.target (some walk) next
  return there ++ byWalk.flatten

/-- The connections from a ride, which is boarded at `boardPosition` at the earliest, to the next
one. -/
def connections (s : ConnectionScene) (ride : Ride) (boardPosition : Nat) (next : Ride) :
    Checked (List Connection) := do
  let p ← s.network.pattern ride.trip.pattern
  let found ← (List.range' (boardPosition + 1) (p.length - (boardPosition + 1))).mapM
    (s.connectionsFrom ride next p)
  return found.flatten

/-- The connections between each ride and the next one. A ride may be boarded as early as the
earliest connection to it allows. -/
def alternativesFrom (s : ConnectionScene) (boardPosition : Nat) (ride : Ride) :
    List Ride → Checked (List (List Connection))
  | [] => pure []
  | next :: rest => do
    let found ← s.connections ride boardPosition next
    let earliest := (found.map fun c => c.target.position).min?.getD next.boardPosition
    return found :: (← s.alternativesFrom earliest next rest)

/-- For each pair of consecutive rides, all connections between them. -/
def alternatives (s : ConnectionScene) : List Ride → Checked (List (List Connection))
  | [] => pure []
  | first :: rest => s.alternativesFrom first.boardPosition first rest

end ConnectionScene

end JourneyPlanner
