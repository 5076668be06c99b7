import JourneyPlanner.Decimal.Fixed
import JourneyPlanner.Transfer.Constraint
import JourneyPlanner.Network.Trip

/-!
# Tariffs

The generalized cost of travelling: time weighted by how it is spent, and what each boarding adds.

* `CostOptions`: the weights, in seconds and as factors.
* `Tariff`: the same in hundredths of a second, as whole numbers.
* `Tariff.boardingCost`, `Tariff.ridingCost`, `Tariff.walkCost`: what the parts of a journey cost.
* `Tariff.leastCost`: a bound below the cost of any journey of a given length.
-/

namespace JourneyPlanner

namespace Cost

/-- A floating number rounded to the nearest whole number, halves away from zero, and to the
nearest word if it is beyond all words. What is not a number becomes zero. -/
def roundFloat (x : Float) : Int :=
  match Decimal.Exact.ofFloat? x with
  | some exact => clampWord exact.nearest
  | none => if x.isNaN then 0 else if x < 0 then leastWord else greatestWord

/-- The cost of a number of seconds. -/
def ofFloat (seconds : Float) : Cost := roundFloat (seconds * 100)

def ofSeconds (seconds : Int) : Cost := clampWord (100 * seconds)

def toFloat (cost : Cost) : Float := Float.ofInt cost / 100

end Cost

/-- How the parts of a journey weigh. -/
structure CostOptions where
  /-- the cost of each boarding, in seconds -/
  board : Int := 600
  /-- the additional cost of each boarding after the first one, in seconds -/
  transfer : Int := 0
  /-- the factor of waiting -/
  wait : Float := 1
  /-- the factor of walking -/
  walk : Float := 2
  /-- the factors of riding, by reluctance of the trip; a factor that is missing is one -/
  transit : List Float := []
  /-- the cost of boarding or alighting at each stop, in seconds -/
  stops : Option (List Int) := none

/-- The costs and factors of a journey in hundredths: a factor times a number of seconds is a
cost. -/
structure Tariff where
  board : Cost
  boardAgain : Cost
  wait : Int
  walk : Int
  transit : Array Int
  leastTransit : Int
  stops : Array Cost
deriving DecidableEq, Repr

/-- The factor of riding a trip whose reluctance has none. -/
def defaultTransitFactor : Int := 100

namespace Tariff

/-- The tariff of some options. The two costs of a boarding together have to fit a word. -/
def ofOptions (options : CostOptions) : Checked Tariff := do
  let both ← word (options.board + options.transfer)
  let transit := options.transit.map Cost.ofFloat
  return {
    board := Cost.ofSeconds options.board
    boardAgain := Cost.ofSeconds both
    wait := Cost.ofFloat options.wait
    walk := Cost.ofFloat options.walk
    transit := transit.toArray
    leastTransit := transit.foldl min defaultTransitFactor
    stops := ((options.stops.getD []).map Cost.ofSeconds).toArray }

def transitFactor (tariff : Tariff) (reluctance : Nat) : Int :=
  tariff.transit.getD reluctance defaultTransitFactor

def stopCost (tariff : Tariff) (stop : StopId) : Cost :=
  tariff.stops.getD stop 0

/-- The cost of boarding a trip at a stop after waiting since `since`. A traveller who stays
seated waits on board and does not board again; after a guaranteed change there is no additional
cost either. -/
def boardingCost (tariff : Tariff) (first : Bool) (since : Time) (stop : StopId)
    (boardTime : Time) (trip : Trip) (constraint : Constraint) : Checked Cost := do
  let wait ← magnitude (← word (boardTime - since))
  match constraint with
  | .staySeated => word (tariff.transitFactor trip.reluctance * wait)
  | .guaranteed =>
    let waiting ← word (tariff.wait * wait)
    let boarded ← word (waiting + tariff.board)
    word (boarded + tariff.stopCost stop)
  | _ =>
    let waiting ← word (tariff.wait * wait)
    let boarded ← word (waiting + if first then tariff.board else tariff.boardAgain)
    word (boarded + tariff.stopCost stop)

/-- The cost up to the alighting of a ride of `span` seconds, given the cost up to its boarding
and the slack after the alighting. -/
def ridingCost (tariff : Tariff) (boarded : Cost) (slack : Span) (span : Span) (trip : Trip)
    (stop : StopId) : Checked Cost := do
  let riding ← word (tariff.transitFactor trip.reluctance * span)
  let ridden ← word (boarded + riding)
  let waiting ← word (tariff.wait * slack)
  let left ← word (ridden + waiting)
  word (left + tariff.stopCost stop)

def waitCost (tariff : Tariff) (span : Span) : Checked Cost := word (tariff.wait * span)

def walkCost (tariff : Tariff) (span : Span) : Checked Cost := word (tariff.walk * span)

/-- A bound below the cost of a journey that takes at least `span` seconds and `transfers`
transfers. -/
def leastCost (tariff : Tariff) (span : Span) (transfers : Nat) : Checked Cost := do
  let changes ← word (tariff.boardAgain * transfers)
  let boarded ← word (tariff.board + changes)
  let riding ← word (tariff.leastTransit * span)
  word (boarded + riding)

end Tariff

end JourneyPlanner
