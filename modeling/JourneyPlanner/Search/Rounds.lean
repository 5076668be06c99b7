import JourneyPlanner.Request
import JourneyPlanner.Search.IndexSet

/-!
# Search by rounds

A round rides every pattern that goes through a stop reached in the round before, once and from
the first such stop on, and then walks from the stops where rides ended. After `n` rounds all
places that `n` rides reach have been reached.

* `Scheme`: what a search keeps of the places reached, and how it rides and walks.
* `ScanMarks`: the patterns to ride in a round, each with the position from which on.
* `transitRound`: ride the patterns of a round.
* `iterate`: all rounds from one start time on.
* `run`: one iteration for every start time.
-/

namespace JourneyPlanner

/-- A way to search by rounds. The state `σ` tells which places have been reached, `κ` what is on
board while a pattern is ridden, and `ι` designates an arrival from which a trip can be boarded.
Boarding only changes what is on board, and alighting only the places reached. -/
structure Scheme (σ κ ι : Type) where
  /-- before the first round from a start time -/
  start : Time → σ → σ
  /-- reach a stop by a walk from the origin -/
  seed : Connector → Time → σ → Checked σ
  /-- reach a stop on board of a connector -/
  seedOnBoard : Connector → Time → σ → Checked σ
  /-- turn to a round; whether any stop was reached in the round before -/
  advance : Nat → σ → Checked (Bool × σ)
  /-- the stops reached in the round before -/
  reached : σ → IndexSet
  /-- the stops where rides of the round have ended -/
  ridden : σ → IndexSet
  /-- what is on board before a pattern is ridden -/
  enter : Pattern → Timetable → Checked κ
  /-- leave the trips on board at a stop -/
  alight : κ → StopId → Nat → σ → Checked σ
  /-- the arrivals of the round before at a stop -/
  boardable : σ → StopId → Checked (List ι)
  /-- board a trip after an arrival -/
  board : σ → ι → StopId → Nat → κ → Checked κ
  /-- walk from a stop where rides of the round have ended -/
  walk : StopId → List Walk → σ → Checked σ
  /-- after the rides and walks of a round -/
  finish : σ → Checked σ

/-- The frame of a search: where, in which direction and for how many rounds it goes. -/
structure Course where
  network : Network
  direction : Direction
  maxRounds : Nat
  /-- the legs where the search starts -/
  access : List Connector

/-! ### The patterns of a round -/

/-- The patterns to ride, in the order in which they were met, and for each the first position
from which to ride it. -/
structure ScanMarks where
  first : Array (Option Nat)
  queue : Array PatternId
deriving DecidableEq, Repr

namespace ScanMarks

/-- No pattern to ride, out of `count` patterns. -/
def empty (count : Nat) : ScanMarks := ⟨Array.replicate count none, #[]⟩

/-- Mark a pattern to be ridden from a position on, or from an earlier one if it is marked. -/
def mark (d : Direction) (marks : ScanMarks) (visit : PatternId × Nat) : Checked ScanMarks := do
  let (pattern, position) := visit
  match ← fetch marks.first pattern with
  | none =>
    return ⟨marks.first.setIfInBounds pattern (some position), marks.queue.push pattern⟩
  | some first =>
    if d.precedes position first then
      return { marks with first := marks.first.setIfInBounds pattern (some position) }
    else return marks

def markStops (net : Network) (d : Direction) (marks : ScanMarks) (stops : List StopId) :
    Checked ScanMarks :=
  stops.foldlM (fun marks stop => do (← fetch net.patternsAt stop).foldlM (mark d) marks) marks

/-- The patterns to ride, each with its first position. -/
def plan (marks : ScanMarks) : List (PatternId × Nat) :=
  marks.queue.toList.filterMap fun pattern =>
    (marks.first.getD pattern none).map fun first => (pattern, first)

def clear (marks : ScanMarks) : ScanMarks :=
  ⟨marks.queue.foldl (fun first pattern => first.setIfInBounds pattern none) marks.first, #[]⟩

end ScanMarks

section

variable {σ κ ι : Type} (scheme : Scheme σ κ ι) (course : Course)

/-! ### Riding -/

/-- Visit a position of a pattern: alight, and then board. A trip boarded at a position is not left
there. -/
def visit (p : Pattern) (current : σ × κ) (position : Nat) : Checked (σ × κ) := do
  let (state, onBoard) := current
  let stop ← p.stopAt position
  let state ←
    if ← course.direction.canAlight p position then scheme.alight onBoard stop position state
    else pure state
  let boards ← course.direction.canBoard p position
  if boards && (scheme.reached state).contains stop then
    let arrivals ← scheme.boardable state stop
    let onBoard ← arrivals.foldlM
      (fun onBoard arrival => scheme.board state arrival stop position onBoard) onBoard
    return (state, onBoard)
  else return (state, onBoard)

/-- Ride a pattern from a position to its end. A pattern without trips is left alone. -/
def ridePattern (state : σ) (start : PatternId × Nat) : Checked σ := do
  let p ← course.network.pattern start.1
  let t ← course.network.timetable start.1
  if t.size = 0 then return state
  let onBoard ← scheme.enter p t
  let positions := course.direction.positionsFrom start.2 p.length
  let (state, _) ← positions.foldlM (visit scheme course p) (state, onBoard)
  return state

/-- Ride all patterns through the stops reached in the round before. The marks are empty before
and after. -/
def transitRound (state : σ) (marks : ScanMarks) : Checked (σ × ScanMarks) := do
  let stops := (scheme.reached state).toList
  let marks ← marks.markStops course.network course.direction stops
  let state ← marks.plan.foldlM (ridePattern scheme course) state
  return (state, marks.clear)

/-- Walk from the stops where rides of the round have ended. -/
def walkRound (state : σ) : Checked σ :=
  (scheme.ridden state).toList.foldlM
    (fun state stop => do
      scheme.walk stop (← course.network.walks course.direction stop) state) state

/-! ### Rounds -/

/-- A search between two iterations. -/
structure Progress (σ : Type) where
  state : σ
  marks : ScanMarks
  /-- the highest number of rounds of an iteration -/
  rounds : Nat

def Progress.new (course : Course) (state : σ) : Progress σ :=
  ⟨state, .empty course.network.patternCount, 0⟩

def Course.onBoardAccess (course : Course) : List Connector :=
  course.access.filter (·.onBoard)

def Course.walkingAccess (course : Course) : List Connector :=
  course.access.filter fun c => !c.onBoard

/-- At most `remaining` rounds from `round` on, until no stop is reached any more. The number of the
round has to fit a byte. -/
def roundsFrom (time : Time) : (remaining : Nat) → (round : Nat) → Progress σ →
    Checked (Progress σ)
  | 0, _, progress => pure progress
  | remaining + 1, round, ⟨state, marks, rounds⟩ => do
    let (more, state) ← scheme.advance round state
    if !more && !(round == 1 && !course.onBoardAccess.isEmpty) then
      return ⟨state, marks, rounds⟩
    let (state, marks) ← transitRound scheme course state marks
    let state ←
      if round = 1 then
        course.onBoardAccess.foldlM (fun state c => scheme.seedOnBoard c time state) state
      else pure state
    let state ← walkRound scheme course state
    let state ← scheme.finish state
    let next ← byte (round + 1)
    roundsFrom time remaining next ⟨state, marks, max rounds round⟩

/-- All rounds from a start time on. -/
def iterate (progress : Progress σ) (time : Time) : Checked (Progress σ) := do
  let ⟨state, marks, rounds⟩ := progress
  let state ← course.walkingAccess.foldlM (fun state c => scheme.seed c time state)
    (scheme.start time state)
  roundsFrom scheme course time course.maxRounds 1 ⟨state, marks, rounds⟩

/-- One iteration for every start time, as long as the time budget lasts. -/
def run (deadline : Deadline) (progress : Progress σ) (times : List Time) :
    Checked (Progress σ) :=
  times.foldlM (fun progress time => do
    deadline.check (.iteration time)
    iterate scheme course progress time) progress

end

end JourneyPlanner
