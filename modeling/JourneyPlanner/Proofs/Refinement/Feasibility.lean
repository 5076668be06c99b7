import Mathlib.Tactic.Linarith
import JourneyPlanner.Refinement.Connection
import JourneyPlanner.Proofs.Itinerary.Building

/-!
# Feasible connections

Whether the time between two calls is enough, in numbers of any size.

* `Ride.leaving`, `Ride.boarding`: the calls between which a ride lasts.
* `ConnectionScene.Feasible`: what the time between two calls has to be under a constraint.
* `ConnectionScene.yields_isFeasible`: the check decides just that.
* `ConnectionScene.feasible_iff_of_regular`: what remains to be asked of a change that respects all
  slacks.
-/

namespace JourneyPlanner

structure Slacks.Nonneg (slacks : Slacks) : Prop where
  board : 0 ≤ slacks.board
  alight : 0 ≤ slacks.alight
  transfer : 0 ≤ slacks.transfer

namespace Slacks.Nonneg

variable {slacks : Slacks}

theorem beforeBoarding (h : slacks.Nonneg) (d : Direction) : 0 ≤ slacks.beforeBoarding d := by
  cases d with
  | forward => exact h.board
  | reverse => exact h.alight

theorem afterAlighting (h : slacks.Nonneg) (d : Direction) : 0 ≤ slacks.afterAlighting d := by
  cases d with
  | forward => exact h.alight
  | reverse => exact h.board

end Slacks.Nonneg

namespace Ride

def leaving (r : Ride) : TripCall := ⟨r.trip, r.alightPosition, r.alightStop, r.arrives⟩

def boarding (r : Ride) : TripCall := ⟨r.trip, r.boardPosition, r.boardStop, r.departs⟩

variable {r : Ride}

theorem Timed.arriving (h : r.Timed) :
    TripCall.arriving r.trip r.alightPosition r.alightStop = .ok r.leaving := by
  have halight : r.trip.arrival r.alightPosition = .ok r.arrives := h.alight
  rw [TripCall.arriving, halight]
  rfl

theorem Timed.departing (h : r.Timed) :
    TripCall.departing r.trip r.boardPosition r.boardStop = .ok r.boarding := by
  have hboard : r.trip.departure r.boardPosition = .ok r.departs := h.board
  rw [TripCall.departing, hboard]
  rfl

end Ride

namespace ConnectionScene

variable {s : ConnectionScene} {source target : TripCall} {walk : Span} {constraint : Constraint}

/-- From when on a trip can be boarded after a walk, all slacks counting. -/
def regularBound (s : ConnectionScene) (source : TripCall) (walk : Span) : Time :=
  source.time + s.slacks.alight + walk + s.slacks.transfer + s.slacks.board

/-- What the time between two calls has to be under a constraint. -/
def Feasible (s : ConnectionScene) (source target : TripCall) (walk : Span) : Constraint → Prop
  | .notAllowed => False
  | .guaranteed | .staySeated => source.time + walk ≤ target.time
  | .minTime least => source.time + least ≤ target.time ∧
    (s.definitive = false → s.regularBound source walk ≤ target.time)
  | .regular => s.regularBound source walk ≤ target.time

/-- The check of a connection decides whether it is feasible. -/
theorem yields_isFeasible : Yields (s.isFeasible source target walk constraint) fun feasible =>
    feasible = true ↔ s.Feasible source target walk constraint := by
  refine (yields_word _).bind ?_
  rintro _ - ⟨rfl, -⟩
  refine (yields_word _).bind ?_
  rintro _ - ⟨rfl, -⟩
  refine (yields_word _).bind ?_
  rintro _ - ⟨rfl, -⟩
  refine (yields_word _).bind ?_
  rintro _ - ⟨rfl, -⟩
  cases constraint with
  | notAllowed => simp [Feasible]
  | regular => simp [Feasible, regularBound]
  | guaranteed | staySeated =>
    refine (yields_word _).bind ?_
    rintro _ - ⟨rfl, -⟩
    simp [Feasible]
  | minTime least =>
    refine (yields_word _).bind ?_
    rintro _ - ⟨rfl, -⟩
    cases hdefinitive : s.definitive <;> simp [Feasible, regularBound, hdefinitive]

/-- A change that respects all slacks is feasible under any constraint but one that forbids it, or
that asks for more time than there is. -/
theorem feasible_iff_of_regular (hslacks : s.slacks.Nonneg)
    (hregular : s.Feasible source target walk .regular) :
    s.Feasible source target walk constraint ↔ constraint ≠ .notAllowed ∧
      ∀ least, constraint = .minTime least → source.time + least ≤ target.time := by
  have hbound : s.regularBound source walk ≤ target.time := hregular
  cases constraint with
  | notAllowed => simp [Feasible]
  | regular => simpa [Feasible] using hbound
  | guaranteed | staySeated =>
    have := hslacks.board
    have := hslacks.alight
    have := hslacks.transfer
    simp only [Feasible, regularBound] at *
    simp
    linarith
  | minTime least => simp [Feasible, hbound]

end ConnectionScene

end JourneyPlanner
