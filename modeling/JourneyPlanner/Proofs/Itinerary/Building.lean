import JourneyPlanner.Itinerary.Basic
import JourneyPlanner.Proofs.Tariff

/-!
# Building itineraries

What remains of the parts that an itinerary is made of: its rides are those given, and its walks
are those given at the times that the rides leave them.

* `Leg.untimed`: a part without the times of walks.
* `Ride.Timed`: a ride between positions of its trip.
* `Itinerary.yields_new`: an itinerary has the parts it is made of.
-/

namespace JourneyPlanner

def Leg.source : Leg → StopId
  | .ride r => r.boardStop
  | .walk stroll => stroll.source

def Leg.target : Leg → StopId
  | .ride r => r.alightStop
  | .walk stroll => stroll.target

/-- A part without the times of walks. -/
def Leg.untimed : Leg → Leg
  | .ride r => .ride r
  | .walk stroll => .walk (.untimed stroll.source stroll.target stroll.duration)

namespace Ride

/-- When the trip departs where it is boarded, zero outside the trip. -/
def departs (r : Ride) : Time := r.trip.departures.getD r.boardPosition 0

/-- When the trip arrives where it is left, zero outside the trip. -/
def arrives (r : Ride) : Time := r.trip.arrivals.getD r.alightPosition 0

/-- The positions are inside the trip. -/
structure Timed (r : Ride) : Prop where
  board : r.boardTime = .ok r.departs
  alight : r.alightTime = .ok r.arrives

theorem Timed.yields_duration {r : Ride} (h : r.Timed) :
    Yields r.duration fun span => span = r.arrives - r.departs := by
  rw [duration, h.alight, h.board]
  exact (yields_word _).mono fun _ _ h => h.1

end Ride

/-! ### Parts with and without times -/

section

variable {legs : List Leg} {leg : Leg}

theorem source_untimed : leg.untimed.source = leg.source := by cases leg <;> rfl

theorem target_untimed : leg.untimed.target = leg.target := by cases leg <;> rfl

theorem isRide_untimed : leg.untimed.isRide = leg.isRide := by cases leg <;> rfl

/-- Parts are walks whenever they start. -/
theorem walks_of_untimed {others : List Leg} (heq : others.map Leg.untimed = legs.map Leg.untimed)
    (hwalks : ∀ leg ∈ others, leg.isRide = false) : ∀ leg ∈ legs, leg.isRide = false := by
  intro leg hleg
  have hmem : leg.untimed ∈ others.map Leg.untimed := heq ▸ List.mem_map_of_mem hleg
  obtain ⟨other, hother, hsame⟩ := List.mem_map.mp hmem
  rw [← isRide_untimed, ← hsame, isRide_untimed]
  exact hwalks other hother

/-- A ride does not move, whenever the walks around it start. -/
theorem exists_ride_of_untimed {others before after : List Leg} {r : Ride}
    (heq : others.map Leg.untimed = legs.map Leg.untimed)
    (hothers : others = before ++ .ride r :: after) :
    ∃ before' after', legs = before' ++ .ride r :: after' ∧
      before.map Leg.untimed = before'.map Leg.untimed ∧
      after.map Leg.untimed = after'.map Leg.untimed := by
  subst hothers
  rw [List.map_append, List.map_cons] at heq
  obtain ⟨before', rest, rfl, hbefore, hrest⟩ := List.map_eq_append_iff.mp heq.symm
  obtain ⟨leg, after', rfl, hride, hafter⟩ := List.map_eq_cons_iff.mp hrest
  cases leg with
  | ride r' =>
    obtain rfl := Leg.ride.inj hride
    exact ⟨before', after', rfl, hbefore.symm, hafter.symm⟩
  | walk stroll => cases hride

/-- Two rides with nothing but walks between them are so whenever the walks start. -/
theorem exists_of_untimed {others before between after : List Leg} {first second : Ride}
    (heq : others.map Leg.untimed = legs.map Leg.untimed)
    (hothers : others = before ++ .ride first :: (between ++ .ride second :: after))
    (hwalks : ∀ leg ∈ between, leg.isRide = false) :
    ∃ before' between' after',
      legs = before' ++ .ride first :: (between' ++ .ride second :: after') ∧
      between.map Leg.untimed = between'.map Leg.untimed ∧
      ∀ leg ∈ between', leg.isRide = false := by
  obtain ⟨before', rest, rfl, -, hrest⟩ := exists_ride_of_untimed heq hothers
  obtain ⟨between', after', rfl, hbetween, -⟩ := exists_ride_of_untimed hrest rfl
  exact ⟨before', between', after', rfl, hbetween, walks_of_untimed hbetween hwalks⟩

end

namespace Itinerary

variable {tariff : Tariff} {slacks : Slacks} {legs : List Leg}

/-- All rides among some parts are timed. -/
def AllTimed (legs : List Leg) : Prop := ∀ r, .ride r ∈ legs → r.Timed

theorem AllTimed.cons {leg : Leg} (h : AllTimed (leg :: legs)) : AllTimed legs :=
  fun r hr => h r (List.mem_cons_of_mem _ hr)

theorem allTimed_ride {r : Ride} : AllTimed (.ride r :: legs) ↔ r.Timed ∧ AllTimed legs := by
  constructor
  · intro h
    exact ⟨h r List.mem_cons_self, h.cons⟩
  · rintro ⟨hride, h⟩ r' hr'
    rcases List.mem_cons.mp hr' with heq | hr'
    · obtain rfl := Leg.ride.inj heq
      exact hride
    · exact h r' hr'

theorem allTimed_append {others : List Leg} :
    AllTimed (legs ++ others) ↔ AllTimed legs ∧ AllTimed others := by
  simp only [AllTimed, List.mem_append, or_imp, forall_and]

theorem AllTimed.of_walks (hwalks : ∀ leg ∈ legs, leg.isRide = false) : AllTimed legs := by
  intro r hr
  cases hwalks _ hr

/-- Placing walks changes nothing but their times. -/
theorem yields_walksBefore {time : Time} :
    Yields (walksBefore time legs) fun result =>
      result.1.map Leg.untimed = legs.map Leg.untimed := by
  induction legs with
  | nil => rfl
  | cons leg rest ih =>
    cases leg with
    | walk stroll =>
      refine ih.bind fun result _ hresult => ?_
      refine (yields_word _).bind fun _ _ _ => ?_
      simp only [yields_pure, List.map_cons, hresult, Leg.untimed]
    | ride r =>
      refine ih.bind fun result _ hresult => ?_
      simp only [yields_pure, List.map_cons, hresult, Leg.untimed]

/-- Placing parts one after the other changes nothing but the times of walks. -/
theorem yields_legsAfter {slack : Span} {time : Time} (htimed : AllTimed legs) :
    Yields (legsAfter slack time legs) fun result =>
      result.1.map Leg.untimed = legs.map Leg.untimed := by
  induction legs generalizing time with
  | nil => rfl
  | cons leg rest ih =>
    cases leg with
    | walk stroll =>
      refine (yields_word _).bind fun endTime _ _ => ?_
      refine (ih htimed.cons).bind fun result _ hresult => ?_
      simp only [yields_pure, List.map_cons, hresult, Leg.untimed]
    | ride r =>
      rw [legsAfter, (htimed r (by simp)).alight]
      refine (yields_word _).bind fun left _ _ => ?_
      refine (ih htimed.cons).bind fun result _ hresult => ?_
      simp only [yields_pure, List.map_cons, hresult, Leg.untimed]

theorem yields_addLegCost {state : CostState} {leg : Leg}
    (htimed : ∀ r, leg = .ride r → r.Timed) :
    Yields (addLegCost tariff slacks state leg) fun _ => True := by
  cases leg with
  | walk stroll =>
    refine Tariff.yields_walkCost.bind fun _ _ _ => ?_
    exact (yields_word _).bind fun _ _ _ => trivial
  | ride r =>
    have hr := htimed r rfl
    rw [addLegCost, hr.board, hr.alight]
    have hrest : ∀ since, Yields (do
        let boarding ← tariff.boardingCost state.first since r.boardStop r.departs
          r.trip r.constraint
        let boarded ← word (state.cost + boarding)
        let riding ← tariff.ridingCost 0 slacks.alight (← r.duration) r.trip r.alightStop
        let alighting ← (.ok r.arrives : Checked Time)
        return ({
          cost := ← word (boarded + riding)
          first := false
          arrival := ← word (alighting + slacks.alight)
          alighting } : CostState)) fun _ => True := by
      intro since
      refine Tariff.yields_boardingCost.bind fun _ _ _ => ?_
      refine (yields_word _).bind fun _ _ _ => ?_
      refine hr.yields_duration.bind fun _ _ _ => ?_
      refine Tariff.yields_ridingCost.bind fun _ _ _ => ?_
      refine (yields_word _).bind fun _ _ _ => ?_
      exact (yields_word _).bind fun _ _ _ => trivial
    show Yields (if state.first = true then _ else _) _
    split
    · exact (yields_word _).bind fun since _ _ => hrest since
    · exact hrest _

/-- An itinerary whose rides have times has a cost, unless a number leaves its width. -/
theorem yields_generalizedCost {access : TimedConnector} {egress : Connector}
    (htimed : AllTimed legs) :
    Yields (generalizedCost tariff slacks access legs egress) fun _ => True := by
  refine (Yields.foldlM (I := fun _ => True) trivial fun state leg hleg _ =>
    yields_addLegCost fun r hr => htimed r (hr ▸ hleg)).bind fun state _ _ => ?_
  exact (yields_word _).mono fun _ _ _ => trivial

/-- Parts that differ only in the times of walks have the same rides. -/
theorem ride_mem_of_untimed {others : List Leg} {r : Ride}
    (heq : others.map Leg.untimed = legs.map Leg.untimed) (hr : .ride r ∈ others) :
    .ride r ∈ legs := by
  have hmem : Leg.ride r ∈ legs.map Leg.untimed := by
    rw [← heq]
    exact List.mem_map.mpr ⟨_, hr, rfl⟩
  obtain ⟨leg, hleg, hride⟩ := List.mem_map.mp hmem
  cases leg with
  | ride r' =>
    obtain rfl : r' = r := Leg.ride.inj hride
    exact hleg
  | walk stroll => cases hride

theorem AllTimed.of_untimed {others : List Leg} (h : AllTimed legs)
    (heq : others.map Leg.untimed = legs.map Leg.untimed) : AllTimed others :=
  fun r hr => h r (ride_mem_of_untimed heq hr)

/-- An itinerary has the connectors and the parts that it is made of. -/
theorem yields_new {access egress : Connector} {departure : Time} (htimed : AllTimed legs) :
    Yields (Itinerary.new access legs egress slacks tariff departure) fun it =>
      it.access.leg = access ∧ it.egress.leg = egress ∧
        it.legs.map Leg.untimed = legs.map Leg.untimed := by
  -- the end, once the parts have their times
  have hend : ∀ (timed : List Leg) (accessEnd free : Time),
      timed.map Leg.untimed = legs.map Leg.untimed →
      Yields (do
        let access : TimedConnector := ⟨access, ← word (accessEnd - access.duration), accessEnd⟩
        let timedEgress : TimedConnector := ⟨egress, free, ← word (free + egress.duration)⟩
        return (⟨access, timed, timedEgress,
          ← generalizedCost tariff slacks access timed egress⟩ : Itinerary)) fun it =>
        it.access.leg = access ∧ it.egress.leg = egress ∧
          it.legs.map Leg.untimed = legs.map Leg.untimed := by
    intro timed accessEnd free heq
    refine (yields_word _).bind fun _ _ _ => ?_
    refine (yields_word _).bind fun _ _ _ => ?_
    refine (yields_generalizedCost (htimed.of_untimed heq)).bind fun _ _ _ => ?_
    exact ⟨rfl, rfl, heq⟩
  have hsplit := List.takeWhile_append_dropWhile (p := fun leg : Leg => !leg.isRide) (l := legs)
  have hplain : Yields (do
      let accessEnd ← word (departure + access.duration)
      let placed ← legsAfter slacks.alight accessEnd legs
      let access : TimedConnector := ⟨access, ← word (accessEnd - access.duration), accessEnd⟩
      let timedEgress : TimedConnector := ⟨egress, placed.2, ← word (placed.2 + egress.duration)⟩
      return (⟨access, placed.1, timedEgress,
        ← generalizedCost tariff slacks access placed.1 egress⟩ : Itinerary)) fun it =>
      it.access.leg = access ∧ it.egress.leg = egress ∧
        it.legs.map Leg.untimed = legs.map Leg.untimed := by
    refine (yields_word _).bind fun accessEnd _ _ => ?_
    exact (yields_legsAfter htimed).bind fun result _ hresult =>
      hend result.1 accessEnd result.2 hresult
  rw [Itinerary.new]
  cases hafter : legs.dropWhile fun leg => !leg.isRide with
  | nil => exact hplain
  | cons leg rest =>
    cases leg with
    | walk stroll => exact hplain
    | ride r =>
      have hmem : ∀ leg, leg ∈ Leg.ride r :: rest → leg ∈ legs := by
        intro leg hleg
        rw [← hsplit, hafter]
        exact List.mem_append_right _ hleg
      dsimp only
      rw [(htimed r (hmem _ (by simp))).board]
      refine (yields_word _).bind fun boarding _ _ => ?_
      refine yields_walksBefore.bind fun before _ hbefore => ?_
      refine (yields_legsAfter fun r' hr' => htimed r' (hmem _ hr')).bind fun after _ hlater => ?_
      refine hend _ before.2 after.2 ?_
      rw [List.map_append, hbefore, hlater, ← List.map_append, ← hafter, hsplit]

end Itinerary

end JourneyPlanner
