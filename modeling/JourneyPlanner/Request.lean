import JourneyPlanner.Network.Basic
import JourneyPlanner.Tariff

/-!
# Requests

What a traveller asks for.

* `Connector`: a leg between the origin, or the destination, and a stop.
* `Request`: the question put to a search, with everything that weighs on the answer.
* `Request.startTimes`: the times at which the iterations of a search start.
* `Deadline`: the time budget of a search, which may answer differently at every `Poll`.
-/

namespace JourneyPlanner

/-- A leg between the origin or the destination and a stop, found elsewhere. A walk may only be
combined with a ride; a leg on board of a vehicle is a ride itself. -/
structure Connector where
  stop : StopId
  duration : Span
  cost : Cost
  onBoard : Bool
deriving DecidableEq, Repr

/-- The walks to or from the stops with given names, unknown names being left out. -/
def Network.walkingConnectors (net : Network) (tariff : Tariff) (stops : List (String × Span)) :
    Checked (List Connector) :=
  (stops.filterMap fun (name, duration) => (net.stop? name).map fun stop => (stop, duration)).mapM
    fun (stop, duration) => do return ⟨stop, duration, ← tariff.walkCost duration, false⟩

/-- The seconds that a traveller takes around rides. -/
structure Slacks where
  /-- before boarding -/
  board : Span := 0
  /-- after alighting -/
  alight : Span := 0
  /-- between two rides, besides the other two -/
  transfer : Span := 60
deriving DecidableEq, Repr

namespace Slacks

/-- The slack before a boarding in the sense of a search. -/
def beforeBoarding (slacks : Slacks) (d : Direction) : Span :=
  match d with
  | .forward => slacks.board
  | .reverse => slacks.alight

/-- The slack after an alighting in the sense of a search. -/
def afterAlighting (slacks : Slacks) (d : Direction) : Span :=
  match d with
  | .forward => slacks.alight
  | .reverse => slacks.board

end Slacks

/-- How the transfers of the journeys found are refined. -/
structure RefinementOptions where
  /-- whether transfers may be moved to other stops -/
  moveTransfers : Bool := true
  /-- whether the time waited in transfers weighs -/
  weighWaits : Bool := true
  /-- how many safe transfer times a transfer without any wait costs -/
  safeFactor : Float := 5
  /-- what each second waited earns -/
  backFactor : Float := 1
  /-- the safe transfer time for each ride -/
  perRide : Span := 60
  /-- the least safe transfer time -/
  lower : Span := 40
  /-- the greatest safe transfer time -/
  upper : Span := 1200

/-- A question put to a search. -/
structure Request where
  date : Date
  direction : Direction
  /-- the earliest departure, or the latest arrival of a search that goes back in time -/
  time : Time
  /-- how much later the journeys may depart, or how much earlier they may arrive -/
  window : Span := 0
  /-- the seconds between the start times that are tried -/
  step : Span := 60
  /-- below 256 -/
  maxTransfers : Nat := 10
  /-- the legs from the origin -/
  access : List Connector
  /-- the legs to the destination -/
  egress : List Connector
  slacks : Slacks := {}
  costs : CostOptions := {}
  /-- whether transfer rules apply -/
  useRules : Bool := true
  /-- whether a least transfer time stands for all slacks -/
  definitive : Bool := false
  refinement : RefinementOptions := {}
  /-- the seconds after which the search gives up -/
  timeout : Option Nat := none
  /-- into how many parts the start times are divided -/
  chunks : Nat := 1

namespace Request

/-- The number of rounds of a search: one more than the transfers allowed, as far as a byte goes. -/
def maxRounds (request : Request) : Nat := min (request.maxTransfers + 1) 255

def searchAccess (request : Request) : List Connector :=
  match request.direction with
  | .forward => request.access
  | .reverse => request.egress

def searchEgress (request : Request) : List Connector :=
  match request.direction with
  | .forward => request.egress
  | .reverse => request.access

/-- The start times of the iterations of a search: steps from the time asked for to the end of
the window, the last one in front. -/
def startTimes (request : Request) : Checked (List Time) :=
  let step := max request.step 1
  let count := (max request.window 0 / step).toNat
  stepsFrom request.direction request.time step count
where
  /-- The times `count` steps away and nearer. -/
  stepsFrom (d : Direction) (time : Time) (step : Span) : Nat → Checked (List Time)
    | 0 => do return [← d.plus time 0]
    | count + 1 => do
      let furthest ← d.plus time ((count + 1 : Nat) * step)
      return furthest :: (← stepsFrom d time step count)

/-- The rules of a network that a request follows. -/
def rules (request : Request) (net : Network) : Option RuleIndex :=
  if request.useRules then net.rules else none

end Request

/-- The moments at which a search looks at its time budget: before it computes its bounds, before
the iteration from a start time, and before the transfers of an itinerary are chosen, which is known
by its place in the route. -/
inductive Poll where
  | bounds
  | iteration (start : Time)
  | itinerary (place : Nat)
deriving DecidableEq, Repr

def Poll.phase : Poll → Phase
  | .bounds => .bounds
  | .iteration _ => .routing
  | .itinerary _ => .refinement

/-- The time budget of a search: at which moments it is spent. How long a search takes is not
modelled, so a budget may have any answers. -/
structure Deadline where
  spent : Poll → Bool

/-- A budget with one answer at all moments. -/
instance : Coe Bool (Poll → Bool) := ⟨fun spent _ => spent⟩

namespace Deadline

def unlimited : Deadline := ⟨false⟩

/-- Give up if the budget is spent. -/
def check (deadline : Deadline) (poll : Poll) : Checked Unit :=
  if deadline.spent poll then .error (.timeout poll.phase) else .ok ()

end Deadline

end JourneyPlanner
