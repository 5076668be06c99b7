import JourneyPlanner.Itinerary.Text
import JourneyPlanner.Refinement.WaitPenalty

/-!
# Scores of transfers

How good the transfers of a journey are, and itineraries with their scores.

* `TransferScore`: priority of the transfers, cost with waits, and generalized cost.
* `transferCosts`: the priority and the cost of waits of the transfers between rides.
* `ScoredItinerary.new`: an itinerary with its score.
-/

namespace JourneyPlanner

/-- What is compared between choices of transfers, the less the better. -/
structure TransferScore where
  generalized : Cost
  /-- staying seated before guaranteed changes before others -/
  priority : Cost
  /-- the generalized cost and that of waits -/
  waiting : Cost
deriving DecidableEq, Repr

/-- What is known along the legs of a journey while its transfers are priced. -/
structure TransferState where
  priority : Cost
  waiting : Cost
  /-- when the last ride ended, if there was one -/
  alighting : Option Time
  /-- the seconds walked since -/
  walked : Span

/-- The cost of the wait in a transfer to a ride. -/
def waitCost (penalty : WaitPenalty) (ride : Ride) (alighting : Time) (walked : Span) :
    Checked Cost := do
  match ride.constraint with
  | .staySeated => return WaitPenalty.staySeatedCost
  | .guaranteed => return WaitPenalty.guaranteedCost
  | _ =>
    let between ← word ((← ride.boardTime) - alighting)
    let wait ← word (between - walked)
    return Cost.ofFloat (← penalty.cost wait)

/-- The costs of transfers after one more leg. -/
def addTransferCost (penalty : Option WaitPenalty) (state : TransferState) :
    Leg → Checked TransferState
  | .ride r => do
    let (priority, waiting) ← match state.alighting with
      | none => pure (state.priority, state.waiting)
      | some alighting => do
        let priority ← word (state.priority + r.constraint.priorityCost)
        match penalty with
        | none => pure (priority, state.waiting)
        | some penalty =>
          pure (priority, ← word (state.waiting + (← waitCost penalty r alighting state.walked)))
    return ⟨priority, waiting, some (← r.alightTime), 0⟩
  | .walk stroll => do
    return { state with walked := ← word (state.walked + stroll.duration) }

/-- The priority and the cost of waits of the transfers between the rides of a journey. The
constraint of a ride is about the transfer to it, so that of the first ride does not count. -/
def transferCosts (penalty : Option WaitPenalty) (legs : List Leg) : Checked (Cost × Cost) := do
  let state ← legs.foldlM (addTransferCost penalty) ⟨0, 0, none, 0⟩
  return (state.priority, state.waiting)

def scoreOf (penalty : Option WaitPenalty) (legs : List Leg) (generalized : Cost) :
    Checked TransferScore := do
  let (priority, waiting) ← transferCosts penalty legs
  return ⟨generalized, priority, ← word (generalized + waiting)⟩

structure ScoredItinerary where
  itinerary : Itinerary
  score : TransferScore
deriving DecidableEq, Repr

namespace ScoredItinerary

/-- An itinerary with its score. Without a penalty waits do not count. -/
def new (penalty : Option WaitPenalty) (it : Itinerary) : Checked ScoredItinerary := do
  return ⟨it, ← scoreOf penalty it.legs it.cost⟩

/-- An itinerary with its priority and its cost with waits. -/
def toText (scored : ScoredItinerary) : Checked String := do
  return (← scored.itinerary.toText) ++ " [P" ++ toString scored.score.priority ++ " W" ++
    toString scored.score.waiting ++ "]"

end ScoredItinerary

end JourneyPlanner
