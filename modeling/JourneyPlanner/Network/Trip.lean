import JourneyPlanner.Direction

/-!
# Patterns and trips

* `Pattern`: an ordered sequence of stops with what is allowed at each of them.
* `Trip`: one run along a pattern, with its times.
* `Direction.boardTime`, `Direction.canBoard` and their alighting counterparts: boarding and
  alighting in the sense of a search. A search that goes back in time boards a trip where the
  traveller leaves it.
-/

namespace JourneyPlanner

/-- The number of a stop in its network. -/
abbrev StopId := Nat

abbrev StationId := Nat

abbrev RouteId := Nat

abbrev PatternId := Nat

abbrev TripId := Nat

abbrev ServiceId := Nat

/-- What a traveller may do at a stop of a trip. -/
inductive Flow where
  | boardAndAlight
  | boardOnly
  | alightOnly
  | neither
deriving DecidableEq, Repr

namespace Flow

def boards : Flow → Bool
  | .boardAndAlight | .boardOnly => true
  | .alightOnly | .neither => false

def alights : Flow → Bool
  | .boardAndAlight | .alightOnly => true
  | .boardOnly | .neither => false

def withoutBoarding : Flow → Flow
  | .boardAndAlight | .alightOnly => .alightOnly
  | .boardOnly | .neither => .neither

def withoutAlighting : Flow → Flow
  | .boardAndAlight | .boardOnly => .boardOnly
  | .alightOnly | .neither => .neither

end Flow

/-- A sequence of stops, and what is allowed at each, shared by all trips of a timetable. -/
structure Pattern where
  id : PatternId
  route : RouteId
  stops : Array StopId
  flows : Array Flow
deriving DecidableEq, Repr

namespace Pattern

def length (p : Pattern) : Nat := p.stops.size

/-- The stop at a position, which has to be inside. -/
def stopAt (p : Pattern) (position : Nat) : Checked StopId := fetch p.stops position

/-- Whether a trip may be boarded at a position. Nobody boards at the last one. -/
def canBoard (p : Pattern) (position : Nat) : Checked Bool :=
  if position + 1 < p.length then (fetch p.flows position).map Flow.boards else .ok false

/-- Whether a trip may be left at a position. Nobody alights at the first one. -/
def canAlight (p : Pattern) (position : Nat) : Checked Bool :=
  if 0 < position then (fetch p.flows position).map Flow.alights else .ok false

end Pattern

/-- One run along a pattern. The arrival and the departure at a position are those at the stop of
the pattern there. -/
structure Trip where
  id : TripId
  name : String
  pattern : PatternId
  route : RouteId
  service : ServiceId
  /-- the place of the trip in the timetable of its pattern -/
  rank : Nat
  /-- which transit reluctance of a tariff applies -/
  reluctance : Nat
  arrivals : Array Time
  departures : Array Time
deriving DecidableEq, Repr

namespace Trip

def length (t : Trip) : Nat := t.departures.size

/-- The arrival at a position, which has to be inside. -/
def arrival (t : Trip) (position : Nat) : Checked Time := fetch t.arrivals position

def departure (t : Trip) (position : Nat) : Checked Time := fetch t.departures position

/-- Whether two trips are one and the same. -/
def isSame (t other : Trip) : Bool := t.id == other.id

/-- The name of a trip and the time at which it starts. -/
def label (t : Trip) : Checked String := do
  return t.name ++ " " ++ (← Time.formatShort (t.departures.getD 0 0))

end Trip

structure Walk where
  source : StopId
  target : StopId
  duration : Span
deriving DecidableEq, Repr

namespace Direction

/-- The time at which a search boards a trip at a position: its arrival there for a search that
goes back in time. -/
def boardTime (d : Direction) (t : Trip) (position : Nat) : Checked Time :=
  match d with
  | .forward => t.departure position
  | .reverse => t.arrival position

/-- The time at which a search leaves a trip at a position. -/
def alightTime (d : Direction) (t : Trip) (position : Nat) : Checked Time :=
  match d with
  | .forward => t.arrival position
  | .reverse => t.departure position

/-- Whether a search may board trips of a pattern at a position. -/
def canBoard (d : Direction) (p : Pattern) (position : Nat) : Checked Bool :=
  match d with
  | .forward => p.canBoard position
  | .reverse => p.canAlight position

/-- Whether a search may leave trips of a pattern at a position. -/
def canAlight (d : Direction) (p : Pattern) (position : Nat) : Checked Bool :=
  match d with
  | .forward => p.canAlight position
  | .reverse => p.canBoard position

/-- The stop that a search reaches by a walk. -/
def walkTarget (d : Direction) (walk : Walk) : StopId :=
  match d with
  | .forward => walk.target
  | .reverse => walk.source

end Direction

end JourneyPlanner
