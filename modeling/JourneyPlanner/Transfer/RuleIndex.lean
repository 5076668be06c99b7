import JourneyPlanner.Transfer.Constraint
import JourneyPlanner.Transfer.Endpoint
import JourneyPlanner.Network.Timetable

/-!
# The index of transfer rules

Transfer rules seen from the positions of patterns where a search boards.

A rule holds between a source and a target. A search that follows the clock boards at the target
of a rule; one that goes back in time boards at its source. At every position the entries of the
most specific rules come first, and of equally specific rules those declared first.

* `Rule.ranking`: how specific a rule is.
* `RuleIndex.build`: the entries of all positions, for both directions.
* `RuleIndex.constraintBetween`: what the rules say about the change from one trip to another.
-/

namespace JourneyPlanner

/-- A constraint on the change from one endpoint to another. -/
structure Rule where
  source : Endpoint
  target : Endpoint
  constraint : Constraint
deriving DecidableEq, Repr

/-- How specific a rule is: by its source first, then by its target. -/
def Rule.ranking (rule : Rule) : Nat :=
  10 * rule.source.ranking + rule.target.ranking

/-- A rule seen from a position where a search boards. -/
structure RuleEntry where
  /-- the place of the rule in the declaration -/
  rule : Nat
  /-- the other side of the rule: where the traveller comes from, in the sense of the search -/
  source : Endpoint
  /-- the only trip that the rule is about, when there is one -/
  target : Option TripId
  constraint : Constraint
  specificity : Nat
deriving DecidableEq, Repr

namespace RuleEntry

/-- Whether the rule is about every trip at its position. -/
def isForAllTrips (entry : RuleEntry) : Bool := entry.target.isNone

/-- Whether the rule is about a trip. -/
def appliesTo (entry : RuleEntry) (trip : Trip) : Bool :=
  match entry.target with
  | some target => target == trip.id
  | none => true

end RuleEntry

/-- The entries at every position of one pattern, the most specific first. -/
structure PatternRules where
  entries : Array (List RuleEntry)
deriving DecidableEq, Repr

namespace PatternRules

/-- The entries at a position, none outside the pattern. -/
def entriesAt (rules : PatternRules) (position : Nat) : List RuleEntry :=
  rules.entries.getD position []

def existAt (rules : PatternRules) (position : Nat) : Bool :=
  !(rules.entriesAt position).isEmpty

/-- Whether some trip may be boarded at a position without leaving the vehicle. -/
def staySeatedAt (rules : PatternRules) (position : Nat) : Bool :=
  (rules.entriesAt position).any fun entry => entry.constraint.isStaySeated

end PatternRules

/-- The rules of a network with their entries at all positions. -/
structure RuleIndex where
  rules : List Rule
  /-- the entries by target, at positions where boarding is allowed -/
  forward : Array PatternRules
  /-- the entries by source, at positions where alighting is allowed -/
  reverse : Array PatternRules
  /-- the station of every stop -/
  stations : Array (Option StationId)
deriving DecidableEq, Repr

def stationOf (stations : Array (Option StationId)) (stop : StopId) : Option StationId :=
  stations.getD stop none

namespace RuleIndex

/-- What a place means at a position of a pattern: nothing, all trips, or only one of them. -/
def meaning (stations : Array (Option StationId)) (p : Pattern) (t : Timetable)
    (position : Nat) (place : Place) : Option (Option TripId) :=
  match p.stops[position]? with
  | none => none
  | some stop =>
    match place with
    | .stop named => if named = stop then some none else none
    | .station named => if stationOf stations stop = some named then some none else none
    | .routeStop route named => if route = p.route ∧ named = stop then some none else none
    | .tripStop trip named =>
      if named = position ∧ t.trips.any (·.id == trip) then some (some trip) else none

/-- The entry of a rule at a position of a pattern: the first place of its near side that means
something there decides which trips it is about. -/
def entry? (stations : Array (Option StationId)) (p : Pattern) (t : Timetable)
    (position : Nat) (near far : Rule → Endpoint) (rule : Rule) (number : Nat) :
    Option RuleEntry :=
  ((near rule).places.findSome? (meaning stations p t position)).map fun target =>
    { rule := number
      source := far rule
      target
      constraint := rule.constraint
      specificity := rule.ranking }

/-- Whether an entry comes before another one: it is at least as specific. -/
def precedes (a b : RuleEntry) : Bool := b.specificity ≤ a.specificity

/-- The entries of all rules at a position of a pattern, in order. -/
def entriesAt (stations : Array (Option StationId)) (rules : List Rule) (p : Pattern)
    (t : Timetable) (near far : Rule → Endpoint) (position : Nat) : List RuleEntry :=
  (rules.zipIdx.filterMap fun (rule, number) =>
    entry? stations p t position near far rule number).mergeSort precedes

/-- The entries at the positions of a pattern that a search may board. -/
def patternRules (stations : Array (Option StationId)) (rules : List Rule) (d : Direction)
    (p : Pattern) (t : Timetable) : PatternRules :=
  let (near, far) := match d with
    | .forward => (Rule.target, Rule.source)
    | .reverse => (Rule.source, Rule.target)
  ⟨(Array.range p.length).map fun position =>
    match d.canBoard p position with
    | .ok true => entriesAt stations rules p t near far position
    | _ => []⟩

def build (stations : Array (Option StationId)) (patterns : Array Pattern)
    (timetables : Array Timetable) (rules : List Rule) : RuleIndex :=
  let entries (d : Direction) := (patterns.zip timetables).map fun (p, t) =>
    patternRules stations rules d p t
  { rules, stations, forward := entries .forward, reverse := entries .reverse }

/-- The rules about boarding a pattern, which has to exist. -/
def forPattern (index : RuleIndex) (d : Direction) (pattern : PatternId) :
    Checked PatternRules :=
  match d with
  | .forward => fetch index.forward pattern
  | .reverse => fetch index.reverse pattern

/-- What the most specific rule says about leaving `source` at a position and stop, and then
boarding `target` at a position. -/
def constraintBetween (index : RuleIndex) (source : Trip) (sourcePosition : Nat)
    (sourceStop : StopId) (target : Trip) (targetPosition : Nat) : Option Constraint := do
  let rules ← index.forward[target.pattern]?
  let station := stationOf index.stations sourceStop
  let entry ← (rules.entriesAt targetPosition).find? fun entry =>
    entry.appliesTo target && entry.source.designates source sourcePosition sourceStop station
  some entry.constraint

end RuleIndex

end JourneyPlanner
