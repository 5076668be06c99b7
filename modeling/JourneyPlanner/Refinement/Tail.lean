import JourneyPlanner.Refinement.Connection
import JourneyPlanner.Refinement.Score

/-!
# Tails

The end of a journey, while it is put together from its last ride to its first one.

The first ride of a tail, its head, has no boarding yet: it gets one from the connection to it, or
from the itinerary that is being rebuilt. The score of a tail covers what comes after that
boarding.

* `Tail.ofItinerary?`: the tail that starts with the last ride of an itinerary.
* `Tail.prepend`: the tail with one more ride and the connection from it.
* `Tail.complete`: the itinerary of a tail, once its head is reached.
-/

namespace JourneyPlanner

/-- What the costs of tails depend on. -/
structure Pricing where
  tariff : Tariff
  slacks : Slacks
  /-- the weights of waits, if they count -/
  penalty : Option WaitPenalty

/-- The end of a journey. -/
structure Tail where
  legs : List Leg
  egress : Connector
  score : TransferScore
deriving DecidableEq, Repr

namespace Tail

/-- The legs from the last ride on. -/
def fromLastRide? : List Leg → Option (List Leg)
  | [] => none
  | leg :: rest =>
    match fromLastRide? rest with
    | some legs => some legs
    | none => if leg.isRide then some (leg :: rest) else none

/-- What is known along a tail while its cost is added up. -/
structure CostState where
  cost : Cost
  /-- when the traveller is ready for the next leg; nothing before the head -/
  arrival : Option Time
  alighting : Time

/-- The cost of a tail after one more leg. The boarding of the head is not counted. -/
def addLegCost (pricing : Pricing) (state : CostState) : Leg → Checked CostState
  | .ride r => do
    let boarded ← match state.arrival with
      | none => pure state.cost
      | some arrival => do
        let since := if r.constraint.isFacilitated then state.alighting else arrival
        let boarding ← pricing.tariff.boardingCost false since r.boardStop (← r.boardTime) r.trip
          r.constraint
        word (state.cost + boarding)
    let riding ← pricing.tariff.ridingCost 0 pricing.slacks.alight (← r.duration) r.trip
      r.alightStop
    let cost ← word (boarded + riding)
    let alighting ← r.alightTime
    return ⟨cost, some (← word (alighting + pricing.slacks.alight)), alighting⟩
  | .walk stroll => do
    let cost ← word (state.cost + (← pricing.tariff.walkCost stroll.duration))
    match state.arrival with
    | none => return { state with cost }
    | some arrival =>
      return { state with cost, arrival := some (← word (arrival + stroll.duration)) }

/-- The tail of some legs, with its score. -/
def ofLegs (pricing : Pricing) (legs : List Leg) (egress : Connector) : Checked Tail := do
  let state ← legs.foldlM (addLegCost pricing) ⟨0, none, 0⟩
  let generalized ← word (state.cost + egress.cost)
  return ⟨legs, egress, ← scoreOf pricing.penalty legs generalized⟩

/-- The tail that starts with the last ride of an itinerary, if it has a ride. -/
def ofItinerary? (pricing : Pricing) (it : Itinerary) : Checked (Option Tail) := do
  match fromLastRide? it.legs with
  | none => return none
  | some legs => some <$> ofLegs pricing legs it.egress.leg

def head? (tail : Tail) : Option Ride :=
  match tail.legs with
  | .ride r :: _ => some r
  | _ => none

/-- Whether the head may be boarded at a position: before it is left. -/
def canBoardAt (tail : Tail) (position : Nat) : Bool :=
  match tail.head? with
  | some head => position < head.alightPosition
  | none => false

/-- Legs whose head is boarded at a position and a stop, under a constraint. -/
def boardHead (position : Nat) (stop : StopId) (constraint : Constraint) : List Leg → List Leg
  | .ride r :: rest =>
    .ride { r with boardPosition := position, boardStop := stop, constraint } :: rest
  | legs => legs

/-- The legs of a tail after one more ride and the connection from it. -/
def prependLegs (ride : Ride) (connection : Connection) (legs : List Leg) : List Leg :=
  let target := connection.target
  let walk := match connection.walk with
    | some walk => [Leg.walk (.untimed walk.source walk.target walk.duration)]
    | none => []
  let ride := { ride with
    alightPosition := connection.source.position
    alightStop := connection.source.stop }
  .ride ride :: walk ++ boardHead target.position target.stop connection.constraint legs

/-- The tail with one more ride, left where a connection starts; the head is boarded where the
connection ends. -/
def prepend (pricing : Pricing) (ride : Ride) (connection : Connection) (tail : Tail) :
    Checked Tail :=
  ofLegs pricing (prependLegs ride connection tail.legs) tail.egress

/-- The itinerary of a tail, which takes the place of the rides of a `whole` itinerary. What comes
before them is kept, and the head is boarded like the first of them. -/
def complete (pricing : Pricing) (whole : Itinerary) (tail : Tail) :
    Checked ScoredItinerary := do
  let before := whole.legs.takeWhile fun leg => !leg.isRide
  let legs := match whole.rides.head? with
    | some first => boardHead first.boardPosition first.boardStop first.constraint tail.legs
    | none => tail.legs
  let it ← Itinerary.new whole.access.leg (before ++ legs) tail.egress pricing.slacks
    pricing.tariff whole.startTime
  ScoredItinerary.new pricing.penalty it

/-- A tail by the numbers of its stops, with its score. -/
def toText (tail : Tail) : Checked String := do
  let legs ← tail.legs.mapM Leg.toText
  let egress ← Span.format tail.egress.duration
  return String.intercalate " ~ " legs ++ " ~ " ++ tail.egress.mode ++ " " ++ egress ++
    " [C" ++ toString tail.score.generalized ++ " P" ++ toString tail.score.priority ++
    " W" ++ toString tail.score.waiting ++ "]"

end Tail

end JourneyPlanner
