import JourneyPlanner.Transfer.RuleIndex

/-!
# Boarding under transfer rules

The trip to board at a position after leaving another trip, where rules about the change exist.

The trips are looked at in the order in which the search meets them. For each, the most specific
rule about the change decides. A trip without a decisive rule counts as a regular one, and after
enough trips the question is left to the regular search.

* `RuleSearch.find`: the trip to board, or nothing when a regular search is to be made.
-/

namespace JourneyPlanner

/-- After that many trips that could be boarded, the regular search takes over. -/
def trialLimit : Nat := 5

/-- A trip that rules allow, or forbid, to board. -/
structure Boarding where
  rank : Nat
  trip : Trip
  position : Nat
  time : Time
  constraint : Constraint
deriving DecidableEq, Repr

/-- The change that a search is about to make. Times and sides are in the sense of the search. -/
structure Change where
  /-- the trip that was left -/
  source : Trip
  sourceStop : StopId
  sourcePosition : Nat
  /-- when it was left, without slack -/
  arrival : Time
  /-- the walk to the stop of the boarding, zero when it is the same -/
  walk : Span
  /-- from when on the boarding is possible without any rule -/
  earliest : Time
  /-- where the pattern is boarded -/
  position : Nat
deriving DecidableEq, Repr

/-- What a search needs to know about the rules of a pattern. -/
structure RuleSearch where
  direction : Direction
  rules : PatternRules
  stations : Array (Option StationId)
  /-- whether a least transfer time stands for all slacks -/
  definitive : Bool
deriving DecidableEq, Repr

/-- The search for boardings of a pattern, which has to exist. -/
def RuleIndex.boardingSearch (index : RuleIndex) (d : Direction) (pattern : PatternId)
    (definitive : Bool) : Checked RuleSearch := do
  return ⟨d, ← index.forPattern d pattern, index.stations, definitive⟩

namespace RuleSearch

/-- The entries at the position of a change whose source is the trip that was left. -/
def candidates (s : RuleSearch) (change : Change) : List RuleEntry :=
  let station := stationOf s.stations change.sourceStop
  (s.rules.entriesAt change.position).filter fun entry =>
    entry.source.designates change.source change.sourcePosition change.sourceStop station

/-- What becomes of a trip. -/
inductive Verdict where
  /-- the trip is boarded, or boarding is forbidden, under a constraint -/
  | settle (constraint : Constraint)
  /-- the next trip is looked at; from then on trips without a rule may be boarded if so said -/
  | pass (freed : Bool)
deriving DecidableEq, Repr

/-- The verdict on a trip with a boarding time, `decisive` being the entry that decides on it and
`freed` whether an earlier trip was forbidden by itself. -/
def judge (s : RuleSearch) (change : Change) (arrivalAtStop : Time) (time : Time)
    (freed : Bool) (decisive : Option RuleEntry) : Checked Verdict :=
  let settleFrom (bound : Time) (constraint : Constraint) : Verdict :=
    if s.direction.isBefore time bound then .pass freed else .settle constraint
  match decisive with
  | none => pure (if freed then settleFrom change.earliest .regular else .pass freed)
  | some entry =>
    match entry.constraint with
    | .notAllowed => pure (if entry.isForAllTrips then .settle .notAllowed else .pass true)
    | .guaranteed => pure (settleFrom arrivalAtStop .guaranteed)
    | .staySeated => pure (settleFrom arrivalAtStop .staySeated)
    | .minTime least => do
      let bound ← s.direction.plus change.arrival least
      let bound := if s.definitive then bound else s.direction.worst bound change.earliest
      pure (settleFrom bound (.minTime least))
    | .regular => pure (settleFrom change.earliest .regular)

/-- The boarding among the trips that are left to look at, `tried` of them having been possible
before. -/
def findAmong (s : RuleSearch) (change : Change) (accepts : Trip → Bool)
    (candidates : List RuleEntry) (arrivalAtStop : Time) :
    (tried : Nat) → (freed : Bool) → List (Nat × Trip) → Checked (Option Boarding)
  | _, _, [] => pure none
  | tried, freed, (rank, trip) :: rest => do
    let time ← s.direction.boardTime trip change.position
    if s.direction.isBefore time change.arrival || !accepts trip then
      s.findAmong change accepts candidates arrivalAtStop tried freed rest
    else
      let decisive := candidates.find? fun entry => entry.appliesTo trip
      match ← s.judge change arrivalAtStop time freed decisive with
      | .settle constraint => pure (some ⟨rank, trip, change.position, time, constraint⟩)
      | .pass freed =>
        if trialLimit ≤ tried + 1 then pure none
        else s.findAmong change accepts candidates arrivalAtStop (tried + 1) freed rest

/-- The boarding that rules allow at a position, among the accepted trips of a timetable. There is
none where no rule is about the change or where the rules leave the choice to the regular search.
A boarding that is not allowed means that the pattern must not be boarded there. -/
def find (s : RuleSearch) (t : Timetable) (change : Change) (accepts : Trip → Bool) :
    Checked (Option Boarding) := do
  let candidates := s.candidates change
  if candidates.isEmpty then return none
  let arrivalAtStop ← s.direction.plus change.arrival change.walk
  s.findAmong change accepts candidates arrivalAtStop 0 false (t.ranked s.direction)

end RuleSearch

end JourneyPlanner
