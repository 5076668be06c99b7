import JourneyPlanner.Proofs.Network.Insertion
import JourneyPlanner.Proofs.Search.Riding

/-!
# Trips on board

While a pattern is ridden, a trip is not kept on board when another one is at least as good: met no
later, ridden with the same factor, and at no higher cost once the ride since the origin of times is
taken off. The trips that are compared were boarded at different positions, and a trip that is kept
may be dropped for a third one. Nothing is lost by this: whoever is not kept could not have left
earlier or at a lower cost anywhere.

* `LabelScene.leaving`: when a trip on board is left at a position, and at which cost.
* `LabelScene.boardAll_eq_ok`: what boardings put on board is the front of all of them.
* `LabelScene.boardAll_lossless`: for every boarding one that is no worse is on board.
-/

namespace JourneyPlanner

/-- One boarding while a pattern is ridden: of which trip, where, after which label and under which
rule. -/
structure BoardingStep where
  id : LabelId
  label : Label
  stop : StopId
  position : Nat
  rank : Nat
  trip : Trip
  constraint : Constraint
  /-- when the ride before a change under a rule ended -/
  rideEnd : Option Time

namespace LabelScene

variable (c : LabelScene)

def boardStep (aboard : Aboard) (step : BoardingStep) : Checked Aboard :=
  c.boardTrip step.id step.label step.stop step.position (step.rank, step.trip) step.constraint
    step.rideEnd aboard

/-- Board trips one after the other. -/
def boardAll (aboard : Aboard) (steps : List BoardingStep) : Checked Aboard :=
  steps.foldlM c.boardStep aboard

/-- The trip on board after a boarding. -/
def boardedBy (step : BoardingStep) : Boarded :=
  c.boarded step.id step.label step.stop step.position step.trip step.constraint step.rideEnd

/-- The trip on board after a boarding and what is compared of it. -/
def entryOf (step : BoardingStep) : Boarded × AboardCriteria :=
  (c.boardedBy step, c.aboardCriteria step.rank (c.boardedBy step))

/-- When a trip on board is left at a position, the slack included, and the cost up to then. -/
def leaving (stop : StopId) (position : Nat) (e : Boarded) : Checked (Time × Cost) := do
  let slack := c.slacks.afterAlighting c.direction
  let alightTime ← c.direction.alightTime e.trip position
  let time ← c.direction.plus alightTime slack
  let span ← c.direction.elapsed e.time alightTime
  let cost ← c.tariff.ridingCost e.cost slack span e.trip stop
  return (time, cost)

variable {c} {t : Timetable} {length position : Nat} {rules : Option RuleSearch} {aboard : Aboard}
  {e : Boarded} {step : BoardingStep} {steps : List BoardingStep} {stop : StopId}

/-- A search arrives when and at which cost it leaves the trip. -/
theorem alightTrip_eq {s : Labels} :
    c.alightTrip stop position s e = (do
      let left ← c.leaving stop position e
      c.arrive stop left.1 left.2 (.ride (c.rideOf position e) e.previous) s) := by
  unfold alightTrip leaving
  cases halight : c.direction.alightTime e.trip position with
  | error fault => rfl
  | ok alightTime =>
    have htime : alightTime = c.direction.alightingAt e.trip position := by
      rw [← Direction.opposite_boardingAt]
      exact Direction.boardTime_eq_ok ((Direction.opposite_boardTime _ _ _).trans halight)
    simp only [bind_assoc, pure_bind, rideOf, htime]
    rfl

/-- Leaving a trip on board gives the time and the cost of the label that is offered. -/
theorem yields_leaving (htrip : e.trip.Fits length) (hposition : position < length)
    (round iteration : Nat) :
    Yields (c.leaving stop position e) fun left =>
      left.1 = (c.alighted stop position round iteration e).time ∧
        left.2 = (c.alighted stop position round iteration e).cost := by
  rw [leaving, htrip.alightTime hposition]
  refine Direction.yields_plus.bind ?_
  rintro _ - ⟨rfl, -⟩
  refine Direction.yields_elapsed.bind ?_
  rintro _ - rfl
  refine Tariff.yields_ridingCost.bind ?_
  rintro _ - rfl
  exact ⟨rfl, rfl⟩

/-- A trip is left at its positions only. -/
theorem lt_of_leaving (htrip : e.trip.Fits length) {left : Time × Cost}
    (h : c.leaving stop position e = .ok left) : position < length := by
  obtain ⟨alightTime, halight, -⟩ := bind_eq_ok.mp h
  exact htrip.lt_of_boardTime ((Direction.opposite_boardTime _ _ _).trans halight)

/-! ### What is on board -/

/-- A boarding adds its trip to the front on board. -/
theorem boardStep_eq_ok (htrip : step.trip.Fits length) {aboard' : Aboard}
    (h : c.boardStep aboard step = .ok aboard') :
    aboard' = { aboard with
      front := aboard.front.add c.direction.dominatesAboard (c.entryOf step).1
        (c.entryOf step).2 } := by
  obtain ⟨time, htime, -⟩ := bind_eq_ok.mp h
  exact (yields_boardTrip htrip (htrip.lt_of_boardTime htime)).of_ok h

/-- What boardings put on board is the front of all of them. -/
theorem boardAll_eq_ok (htrips : ∀ step ∈ steps, step.trip.Fits length) {aboard' : Aboard}
    (h : c.boardAll aboard steps = .ok aboard') :
    aboard' = { aboard with
      front := aboard.front.merge c.direction.dominatesAboard ⟨steps.map c.entryOf⟩ } := by
  induction steps generalizing aboard with
  | nil =>
    obtain rfl := Except.ok.inj h
    rfl
  | cons step rest ih =>
    rw [boardAll, List.foldlM_cons] at h
    obtain ⟨next, hstep, hrest⟩ := bind_eq_ok.mp h
    obtain rfl := boardStep_eq_ok (htrips step List.mem_cons_self) hstep
    exact ih (fun other hother => htrips other (List.mem_cons_of_mem _ hother)) hrest

/-- After any boardings of trips of a timetable while its pattern is ridden, each trip on board was
boarded by one of them. For each boarding, also when its trip was refused or has been dropped, there
is a trip on board that is left no later and at no higher cost wherever the other one can be left,
unless a number does not fit a word. -/
theorem boardAll_lossless (hbuilt : t.Built length)
    (hrides : ∀ trip ∈ t.trips, 0 ≤ c.tariff.transitFactor trip.reluctance)
    (htrips : ∀ step ∈ steps, t.trips[step.rank]? = some step.trip)
    (hboard : c.boardAll ⟨t, rules, .empty⟩ steps = .ok aboard) :
    (∀ kept ∈ aboard.front.elements, ∃ step ∈ steps, kept = c.boardedBy step) ∧
    ∀ step ∈ steps, ∃ kept ∈ aboard.front.elements, ∀ stop position time cost,
      c.leaving stop position (c.boardedBy step) = .ok (time, cost) →
      Yields (c.leaving stop position kept) fun left =>
        c.direction.NoLater left.1 time ∧ left.2 ≤ cost := by
  have ht := hbuilt.sound
  have hfits : ∀ step ∈ steps, step.trip.Fits length := fun step hstep =>
    ht.fits step.trip (Array.mem_of_getElem? (htrips step hstep))
  have hdom := c.direction.dominatesAboard_isOrder.toIsPreorder
  obtain rfl := boardAll_eq_ok hfits hboard
  have hentry : ∀ {entry}, entry ∈ (Front.ofList c.direction.dominatesAboard
      (steps.map c.entryOf)).entries → ∃ step ∈ steps, c.entryOf step = entry := fun hentry =>
    List.mem_map.mp (Front.mem_ofList hentry)
  constructor
  · intro kept hkept
    obtain ⟨entry, hmem, rfl⟩ := List.mem_map.mp hkept
    obtain ⟨step, hstep, rfl⟩ := hentry hmem
    exact ⟨step, hstep, rfl⟩
  · intro step hstep
    obtain ⟨entry, hmem, hbetter⟩ := Front.covers_iff.mp
      (Front.covers_ofList hdom (List.mem_map_of_mem hstep))
    obtain ⟨keeper, hkeeper, rfl⟩ := hentry hmem
    refine ⟨c.boardedBy keeper, List.mem_map_of_mem hmem, fun stop position time cost hleft => ?_⟩
    have hposition := lt_of_leaving (hfits step hstep) hleft
    obtain ⟨rfl, rfl⟩ := (yields_leaving (hfits step hstep) hposition 0 0).of_ok hleft
    refine (yields_leaving (hfits keeper hkeeper) hposition 0 0).mono ?_
    rintro left - ⟨htime, hcost⟩
    have hfactor : 0 ≤ (c.entryOf step).2.factor :=
      hrides _ (Array.mem_of_getElem? (htrips step hstep))
    rw [htime, hcost]
    exact (alighted_noWorse ht (htrips step hstep) rfl (htrips keeper hkeeper) rfl
      hbetter).imp_right (· hfactor)

def shuttles : Timetable :=
  ((Timetable.empty 0 2).offerAll [Timetable.shuttle 100 200, Timetable.shuttle 150 300]).1

/-- A search forward, in which a second on a shuttle costs one. -/
def shuttleScene : LabelScene :=
  { direction := .forward
    tariff := ⟨0, 0, 1, 1, #[1], 1, #[]⟩
    slacks := {}
    definitive := false
    rules := none
    services := [0]
    bounds := none
    egress := []
    stopCount := 2 }

/-- Boarding a shuttle at its first stop after an arrival at a given cost. -/
def boardShuttle (rank : Nat) (departure arrival : Time) (cost : Cost) : BoardingStep :=
  { id := rank
    label := ⟨0, 0, 0, departure, cost, .access ⟨0, 0, cost, false⟩⟩
    stop := 0
    position := 0
    rank
    trip := Timetable.shuttle departure arrival
    constraint := .regular
    rideEnd := none }

/-- The later shuttle, boarded at a higher cost, is refused, and the earlier one is no worse. -/
theorem boardAll_lossless_shuttles :
    let later := boardShuttle 1 150 300 90
    ∃ aboard, shuttleScene.boardAll ⟨shuttles, none, .empty⟩ [boardShuttle 0 100 200 0, later] =
        .ok aboard ∧
      aboard.front.size = 1 ∧
      ∃ kept ∈ aboard.front.elements, ∀ stop position time cost,
        shuttleScene.leaving stop position (shuttleScene.boardedBy later) = .ok (time, cost) →
        Yields (shuttleScene.leaving stop position kept) fun left =>
          Direction.forward.NoLater left.1 time ∧ left.2 ≤ cost := by
  intro later
  have hsize : ((shuttleScene.boardAll ⟨shuttles, none, .empty⟩
      [boardShuttle 0 100 200 0, later]).map (·.front.size)).toOption = some 1 := by
    decide +kernel
  obtain ⟨aboard, hboard, hone⟩ := map_eq_ok.mp (toOption_eq_some.mp hsize)
  have hbuilt : Timetable.Built 2 shuttles :=
    ((Timetable.Built.empty 0).offerAll (by simp [Timetable.shuttle_fits])).1
  have hlossless := boardAll_lossless hbuilt (by decide +kernel) (by decide +kernel) hboard
  exact ⟨aboard, hboard, hone, hlossless.2 later (by simp)⟩

end LabelScene

end JourneyPlanner
