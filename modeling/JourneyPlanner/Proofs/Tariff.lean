import JourneyPlanner.Tariff
import JourneyPlanner.Proofs.Direction

/-!
# Prices

What the parts of a journey cost as numbers of any size. A checked cost is the price, or it does
not fit a word.
-/

namespace JourneyPlanner

namespace Tariff

variable (tariff : Tariff)

/-- The price of boarding a trip at a stop after a wait. -/
def boardingPrice (first : Bool) (wait : Span) (stop : StopId) (trip : Trip) : Constraint → Cost
  | .staySeated => tariff.transitFactor trip.reluctance * wait.natAbs
  | .guaranteed => tariff.wait * wait.natAbs + tariff.board + tariff.stopCost stop
  | _ =>
    tariff.wait * wait.natAbs + (if first then tariff.board else tariff.boardAgain) +
      tariff.stopCost stop

/-- The price of a ride from its boarding to the end of the slack after it. -/
def ridingPrice (slack span : Span) (trip : Trip) (stop : StopId) : Cost :=
  tariff.transitFactor trip.reluctance * span + tariff.wait * slack + tariff.stopCost stop

/-- No ride gets cheaper by taking longer. -/
def RidesCost : Prop := ∀ reluctance, 0 ≤ tariff.transitFactor reluctance

variable {tariff} {first : Bool} {since time : Time} {boarded : Cost} {slack span : Span}
  {stop : StopId} {trip : Trip} {constraint : Constraint}

theorem yields_boardingCost :
    Yields (tariff.boardingCost first since stop time trip constraint) fun cost =>
      cost = tariff.boardingPrice first (time - since) stop trip constraint := by
  refine (yields_word _).bind ?_
  rintro _ - ⟨rfl, -⟩
  refine (yields_magnitude _).bind ?_
  rintro _ - rfl
  have hboard : ∀ price, Yields (do
      let waiting ← word (tariff.wait * ((time - since).natAbs : Int))
      let boarded ← word (waiting + price)
      word (boarded + tariff.stopCost stop)) fun cost =>
        cost = tariff.wait * ((time - since).natAbs : Int) + price + tariff.stopCost stop := by
    intro price
    refine (yields_word _).bind ?_
    rintro _ - ⟨rfl, -⟩
    refine (yields_word _).bind ?_
    rintro _ - ⟨rfl, -⟩
    exact (yields_word _).mono fun _ _ h => h.1
  cases constraint with
  | staySeated => exact (yields_word _).mono fun _ _ h => h.1
  | guaranteed => exact hboard _
  | regular | minTime | notAllowed => exact hboard _

theorem yields_ridingCost :
    Yields (tariff.ridingCost boarded slack span trip stop) fun cost =>
      cost = boarded + tariff.ridingPrice slack span trip stop := by
  refine (yields_word _).bind ?_
  rintro _ - ⟨rfl, -⟩
  refine (yields_word _).bind ?_
  rintro _ - ⟨rfl, -⟩
  refine (yields_word _).bind ?_
  rintro _ - ⟨rfl, -⟩
  refine (yields_word _).bind ?_
  rintro _ - ⟨rfl, -⟩
  refine (yields_word _).mono ?_
  rintro _ - ⟨rfl, -⟩
  rw [ridingPrice]
  ring

theorem yields_walkCost : Yields (tariff.walkCost span) fun cost => cost = tariff.walk * span :=
  (yields_word _).mono fun _ _ h => h.1

end Tariff

end JourneyPlanner
