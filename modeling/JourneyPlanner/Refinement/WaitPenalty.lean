import JourneyPlanner.Request

/-!
# Wait penalties

What the time waited in a transfer costs, so that waits are spread over the transfers of a
journey.

With `t₀` the safe transfer time and `n` the safe factor, waiting `t` seconds costs
`n t₀ / (1 + (n - 1) ln (1 + (e - 1) t / t₀))` seconds, which is `n t₀` without any wait and `t₀`
for a wait of `t₀`; and every second waited earns the back factor.

* `WaitPenalty.cost`: the cost of a wait.
* `safeTransferTime`: the safe transfer time of a journey.
-/

namespace JourneyPlanner

structure WaitPenalty where
  backFactor : Float
  safeFactor : Float
  /-- the safe transfer time, in seconds, once it is known -/
  safeTime : Option Float := none

namespace WaitPenalty

/-- The weights that options give, the safe transfer time not being known yet. -/
def ofOptions (options : RefinementOptions) : WaitPenalty :=
  { backFactor := options.backFactor, safeFactor := options.safeFactor }

def withSafeTime (penalty : WaitPenalty) (safeTime : Span) : WaitPenalty :=
  { penalty with safeTime := some (Float.ofInt safeTime) }

/-- The base of natural logarithms. -/
def euler : Float := 2.718281828459045

/-- The cost of a wait that may be too short, in seconds. -/
def shortWait (penalty : WaitPenalty) (wait : Span) : Checked Float :=
  match penalty.safeTime with
  | none => .error .safeTimeUnset
  | some safe =>
    let n := penalty.safeFactor
    let t := Float.ofInt wait
    .ok (n * safe / (1 + (n - 1) * Float.log (1 + (euler - 1) * t / safe)))

/-- What a wait earns, as a negative number of seconds. -/
def backTravel (penalty : WaitPenalty) (wait : Span) : Float :=
  -penalty.backFactor * Float.ofInt wait

/-- The cost of a wait, in seconds. -/
def cost (penalty : WaitPenalty) (wait : Span) : Checked Float := do
  return (← penalty.shortWait wait) + penalty.backTravel wait

/-- The fixed cost of staying seated, below that of any wait. -/
def staySeatedCost : Cost := -10000000

/-- The fixed cost of a guaranteed change, below that of any wait. -/
def guaranteedCost : Cost := -5000000

end WaitPenalty

/-- A value moved between two bounds, the lower one being tried first. -/
def bounded {α : Type} [LT α] [DecidableLT α] (value lower upper : α) : α :=
  if value < lower then lower else if upper < value then upper else value

/-- The safe transfer time of a journey with that many rides. -/
def safeTransferTime (rides : Nat) (options : RefinementOptions) : Span :=
  bounded (clampWord (min (rides : Int) greatestWord * options.perRide))
    options.lower options.upper

end JourneyPlanner
