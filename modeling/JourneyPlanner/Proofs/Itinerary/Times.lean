import JourneyPlanner.Proofs.Itinerary.Pricing

/-!
# When itineraries start and end

The start of an itinerary is that of its first ride, less the slack, the walks and the leg before
it; its end is that of its last ride, with what comes after it. Neither depends on the rides
between.

* `Itinerary.readyBy`: when the traveller has to set out for the first ride.
* `Itinerary.Times`: the start and the end that the parts of an itinerary ask for.
* `Itinerary.Arranged`: where the walks of an itinerary are.
* `Itinerary.new_eq_ok`: an itinerary has the parts it is made of, and the times they ask for.
-/

namespace JourneyPlanner

namespace Ride

variable {r : Ride} {time : Time}

theorem boardTime_eq_ok (h : r.boardTime = .ok time) : time = r.departs := by
  rw [departs, Array.getD_eq_getD_getElem?, fetch_eq_ok.mp h, Option.getD_some]

theorem alightTime_eq_ok (h : r.alightTime = .ok time) : time = r.arrives := by
  rw [arrives, Array.getD_eq_getD_getElem?, fetch_eq_ok.mp h, Option.getD_some]

theorem timed_of_ok {alighting : Time} (hboard : r.boardTime = .ok time)
    (halight : r.alightTime = .ok alighting) : r.Timed where
  board := hboard.trans (congrArg Except.ok (boardTime_eq_ok hboard))
  alight := halight.trans (congrArg Except.ok (alightTime_eq_ok halight))

end Ride

/-! ### Rides after walks -/

section

variable {walks between before legs rest : List Leg} {r second : Ride}

/-- A ride after some walks is among the parts after them. -/
theorem exists_append_of_walks (hwalks : ∀ leg ∈ walks, leg.isRide = false)
    (h : walks ++ legs = before ++ .ride r :: rest) :
    ∃ others, before = walks ++ others ∧ legs = others ++ .ride r :: rest := by
  rcases List.append_eq_append_iff.mp h with ⟨others, hbefore, hlegs⟩ | ⟨others, hlonger, hlegs⟩
  · exact ⟨others, hbefore, hlegs⟩
  · cases others with
    | nil => exact ⟨[], by simpa using hlonger.symm, by simpa using hlegs.symm⟩
    | cons leg others =>
      obtain ⟨rfl, -⟩ := List.cons.inj hlegs
      have hride := hwalks (.ride r) (by rw [hlonger]; simp)
      cases hride

/-- The walks before the first ride are all the parts before it. -/
theorem walks_eq_of_append (hwalks : ∀ leg ∈ walks, leg.isRide = false)
    (hbetween : ∀ leg ∈ between, leg.isRide = false)
    (h : walks ++ .ride r :: legs = between ++ .ride second :: rest) :
    walks = between ∧ r = second := by
  obtain ⟨others, rfl, hlegs⟩ := exists_append_of_walks hwalks h
  cases others with
  | nil => exact ⟨(List.append_nil walks).symm, Leg.ride.inj (List.cons.inj hlegs).1⟩
  | cons leg others =>
    obtain ⟨rfl, -⟩ := List.cons.inj hlegs
    have hride := hbetween (.ride r) (by simp)
    cases hride

end

namespace Itinerary

/-- When the traveller has to start with some parts to be ready for their first ride. Parts without
any ride can be started at any time. -/
def readyBy (board : Span) : List Leg → Option Time
  | [] => none
  | .ride r :: _ => some (r.departs - board)
  | .walk stroll :: rest => (readyBy board rest).map (· - stroll.duration)

/-- An itinerary starts and ends when its parts ask for it. Without any ride it starts at
`departure`. -/
structure Times (slacks : Slacks) (departure : Time) (it : Itinerary) : Prop where
  start : it.startTime + it.access.leg.duration =
    (readyBy slacks.board it.legs).getD (departure + it.access.leg.duration)
  ending : it.endTime =
    timeAfter slacks.alight (it.startTime + it.access.leg.duration) it.legs + it.egress.leg.duration

/-- The walks of an itinerary start when the part before them is over, the slack after a ride
included, and those before the first ride are over when it can be boarded. -/
structure Arranged (slacks : Slacks) (it : Itinerary) : Prop where
  timed : AllTimed it.legs
  placed : Placed slacks.alight it.access.endTime it.legs
  ready : ∀ before r rest, it.legs = before ++ .ride r :: rest →
    (∀ leg ∈ before, leg.isRide = false) →
    timeAfter slacks.alight it.access.endTime before = r.departs - slacks.board

variable {tariff : Tariff} {slacks : Slacks} {slack board : Span}
  {legs others between timed : List Leg} {time departure : Time} {r : Ride}
  {access egress : Connector} {it : Itinerary}

/-! ### Parts that start with walks -/

theorem isRide_takeWhile : ∀ leg ∈ legs.takeWhile fun leg => !leg.isRide, leg.isRide = false :=
  fun leg hleg => by simpa using List.all_eq_true.mp List.all_takeWhile leg hleg

/-- Parts are walks, or else walks up to a first ride. -/
theorem dropWhile_eq_nil_or_ride (legs : List Leg) :
    legs.dropWhile (fun leg => !leg.isRide) = [] ∨
      ∃ r rest, legs.dropWhile (fun leg => !leg.isRide) = .ride r :: rest := by
  have hhead := List.head?_dropWhile_not (fun leg : Leg => !leg.isRide) legs
  cases hafter : legs.dropWhile fun leg => !leg.isRide with
  | nil => exact .inl rfl
  | cons leg rest =>
    cases leg with
    | ride r => exact .inr ⟨r, rest, rfl⟩
    | walk stroll =>
      rw [hafter] at hhead
      cases hhead

/-- Parts are walks, or else the last ones after some ride are. -/
theorem walks_or_lastRide (legs : List Leg) : (∀ leg ∈ legs, leg.isRide = false) ∨
    ∃ before r walks, legs = before ++ .ride r :: walks ∧ ∀ leg ∈ walks, leg.isRide = false := by
  induction legs with
  | nil => exact .inl (by simp)
  | cons leg rest ih =>
    rcases ih with hwalks | ⟨before, r, walks, rfl, hwalks⟩
    · cases leg with
      | ride r => exact .inr ⟨[], r, rest, rfl, hwalks⟩
      | walk stroll =>
        left
        intro leg hleg
        rcases List.mem_cons.mp hleg with rfl | hleg
        · rfl
        · exact hwalks leg hleg
    · exact .inr ⟨leg :: before, r, walks, rfl, hwalks⟩

/-- Walks before a ride make the traveller start earlier by their seconds. -/
theorem readyBy_walks (hwalks : ∀ leg ∈ between, leg.isRide = false) :
    readyBy board (between ++ legs) = (readyBy board legs).map (· - spans between) := by
  induction between with
  | nil => simp
  | cons leg rest ih =>
    cases leg with
    | ride r => exact absurd (hwalks (.ride r) List.mem_cons_self) (by simp [Leg.isRide])
    | walk stroll =>
      rw [List.cons_append, readyBy, ih fun leg hleg => hwalks leg (List.mem_cons_of_mem _ hleg),
        Option.map_map, spans_cons]
      refine congrArg (fun back => (readyBy board legs).map back) (funext fun time => ?_)
      show time - spans rest - stroll.duration = time - (stroll.duration + spans rest)
      ring

/-- The walks before a ride are over when it can be boarded. -/
theorem readyBy_ride (hwalks : ∀ leg ∈ between, leg.isRide = false) :
    readyBy board (between ++ .ride r :: legs) = some (r.departs - board - spans between) :=
  readyBy_walks hwalks

theorem readyBy_eq_none (hwalks : ∀ leg ∈ legs, leg.isRide = false) :
    readyBy board legs = none := by
  have h : readyBy board (legs ++ []) = none := readyBy_walks hwalks
  rwa [List.append_nil] at h

theorem timeAfter_walks (hwalks : ∀ leg ∈ legs, leg.isRide = false) :
    timeAfter slack time legs = time + spans legs := by
  induction legs generalizing time with
  | nil => simp [timeAfter]
  | cons leg rest ih =>
    cases leg with
    | ride r => exact absurd (hwalks (.ride r) List.mem_cons_self) (by simp [Leg.isRide])
    | walk stroll =>
      rw [timeAfter_cons, ih fun leg hleg => hwalks leg (List.mem_cons_of_mem _ hleg), spans_cons,
        ← Int.add_assoc]
      rfl

/-- The end of parts does not depend on what comes before a ride among them. -/
theorem timeAfter_ride (time' : Time) : timeAfter slack time (others ++ .ride r :: legs) =
    timeAfter slack time' (.ride r :: legs) := by
  rw [timeAfter, List.foldl_append]
  rfl

/-! ### Parts with and without times -/

/-- When the traveller has to start does not depend on the times of walks. -/
theorem readyBy_congr (h : others.map Leg.untimed = legs.map Leg.untimed) :
    readyBy board others = readyBy board legs := by
  have huntimed : ∀ parts : List Leg,
      readyBy board (parts.map Leg.untimed) = readyBy board parts := by
    intro parts
    induction parts with
    | nil => rfl
    | cons leg rest ih =>
      cases leg with
      | ride r => rfl
      | walk stroll => exact congrArg (Option.map (· - stroll.duration)) ih
  rw [← huntimed, h, huntimed]

theorem timeAfter_congr (h : others.map Leg.untimed = legs.map Leg.untimed) :
    timeAfter slack time others = timeAfter slack time legs :=
  foldl_untimed (fun _ leg => by cases leg <;> rfl) h time

/-- Walks that end at a time start as much before it as they take. -/
theorem walksBefore_eq_ok {start : Time} (h : walksBefore time legs = .ok (timed, start))
    (hwalks : ∀ leg ∈ legs, leg.isRide = false) :
    timed.map Leg.untimed = legs.map Leg.untimed ∧ start = time - spans legs := by
  have huntimed : Yields (walksBefore time legs) _ := yields_walksBefore
  refine ⟨huntimed.of_ok h, ?_⟩
  clear huntimed
  induction legs generalizing timed start with
  | nil =>
    cases h
    simp
  | cons leg rest ih =>
    cases leg with
    | ride r => exact absurd (hwalks (.ride r) List.mem_cons_self) (by simp [Leg.isRide])
    | walk stroll =>
      obtain ⟨⟨after, ending⟩, hrest, h⟩ := bind_eq_ok.mp h
      obtain ⟨begun, hword, h⟩ := bind_eq_ok.mp h
      cases h
      rw [← (word_eq_ok.mp hword).2,
        ih hrest fun leg hleg => hwalks leg (List.mem_cons_of_mem _ hleg), spans_cons]
      show time - spans rest - stroll.duration = time - (stroll.duration + spans rest)
      ring

/-- Parts that are placed one after the other. -/
theorem legsAfter_eq_ok {free : Time} (h : legsAfter slack time legs = .ok (timed, free)) :
    timed.map Leg.untimed = legs.map Leg.untimed ∧ free = timeAfter slack time legs := by
  induction legs generalizing time timed with
  | nil =>
    cases h
    exact ⟨rfl, rfl⟩
  | cons leg rest ih =>
    cases leg with
    | ride r =>
      obtain ⟨arrival, halight, h⟩ := bind_eq_ok.mp h
      obtain ⟨left, hword, h⟩ := bind_eq_ok.mp h
      obtain ⟨⟨after, ending⟩, hrest, h⟩ := bind_eq_ok.mp h
      cases h
      obtain ⟨huntimed, hending⟩ := ih hrest
      rw [List.map_cons, huntimed, hending, ← (word_eq_ok.mp hword).2,
        Ride.alightTime_eq_ok halight]
      exact ⟨rfl, rfl⟩
    | walk stroll =>
      obtain ⟨left, hword, h⟩ := bind_eq_ok.mp h
      obtain ⟨⟨after, ending⟩, hrest, h⟩ := bind_eq_ok.mp h
      cases h
      obtain ⟨huntimed, hending⟩ := ih hrest
      rw [List.map_cons, huntimed, hending, ← (word_eq_ok.mp hword).2]
      exact ⟨rfl, rfl⟩

/-! ### Itineraries -/

/-- Where a cost adds up, all rides are between positions of their trips. -/
theorem allTimed_of_foldlM {state ending : CostState}
    (h : legs.foldlM (addLegCost tariff slacks) state = .ok ending) : AllTimed legs := by
  induction legs generalizing state with
  | nil => simp [AllTimed]
  | cons leg rest ih =>
    rw [List.foldlM_cons] at h
    obtain ⟨between, hleg, h⟩ := bind_eq_ok.mp h
    intro r hr
    rcases List.mem_cons.mp hr with rfl | hr
    · obtain ⟨boardTime, hboard, hleg⟩ := bind_eq_ok.mp hleg
      obtain ⟨since, hleg⟩ : ∃ since, (do
          let boarding ← tariff.boardingCost state.first since r.boardStop boardTime r.trip
            r.constraint
          let boarded ← word (state.cost + boarding)
          let riding ← tariff.ridingCost 0 slacks.alight (← r.duration) r.trip r.alightStop
          let alighting ← r.alightTime
          return ({
            cost := ← word (boarded + riding)
            first := false
            arrival := ← word (alighting + slacks.alight)
            alighting } : CostState)) = .ok between := by
        dsimp only at hleg
        split at hleg
        · obtain ⟨since, -, hleg⟩ := bind_eq_ok.mp hleg
          exact ⟨since, hleg⟩
        · exact ⟨_, hleg⟩
      obtain ⟨boarding, -, hleg⟩ := bind_eq_ok.mp hleg
      obtain ⟨boarded, -, hleg⟩ := bind_eq_ok.mp hleg
      obtain ⟨duration, -, hleg⟩ := bind_eq_ok.mp hleg
      obtain ⟨riding, -, hleg⟩ := bind_eq_ok.mp hleg
      obtain ⟨alightTime, halight, -⟩ := bind_eq_ok.mp hleg
      exact Ride.timed_of_ok hboard halight
    · exact ih h r hr

/-- An itinerary has the connectors that it is made of, and its rides are between positions of their
trips. Its parts are walks placed from the end of the leg from the origin on, or else walks placed
before a first ride and what comes after them. -/
theorem new_cases (h : Itinerary.new access legs egress slacks tariff departure = .ok it) :
    (it.access.leg = access ∧ it.egress.leg = egress ∧ AllTimed it.legs ∧
      it.startTime + access.duration = it.access.endTime ∧
      it.endTime = it.egress.startTime + egress.duration) ∧
    (((∀ leg ∈ legs, leg.isRide = false) ∧ it.access.endTime = departure + access.duration ∧
        legsAfter slacks.alight it.access.endTime legs = .ok (it.legs, it.egress.startTime)) ∨
      ∃ walks r rest before after, legs = walks ++ .ride r :: rest ∧
        (∀ leg ∈ walks, leg.isRide = false) ∧
        walksBefore (r.departs - slacks.board) walks = .ok (before, it.access.endTime) ∧
        legsAfter slacks.alight it.access.endTime (.ride r :: rest) =
          .ok (after, it.egress.startTime) ∧ it.legs = before ++ after) := by
  -- the connectors, once the parts have their times
  have hend : ∀ {timed : List Leg} {accessEnd free : Time}, (do
      let access : TimedConnector := ⟨access, ← word (accessEnd - access.duration), accessEnd⟩
      let timedEgress : TimedConnector := ⟨egress, free, ← word (free + egress.duration)⟩
      return (⟨access, timed, timedEgress,
        ← generalizedCost tariff slacks access timed egress⟩ : Itinerary)) = .ok it →
      (it.access.leg = access ∧ it.egress.leg = egress ∧ AllTimed it.legs ∧
        it.startTime + access.duration = it.access.endTime ∧
        it.endTime = it.egress.startTime + egress.duration) ∧
      it.legs = timed ∧ it.access.endTime = accessEnd ∧ it.egress.startTime = free := by
    intro timed accessEnd free hnew
    obtain ⟨start, hstart, hnew⟩ := bind_eq_ok.mp hnew
    obtain ⟨ending, hending, hnew⟩ := bind_eq_ok.mp hnew
    obtain ⟨cost, hcost, hnew⟩ := bind_eq_ok.mp hnew
    cases hnew
    obtain ⟨state, hstate, -⟩ := bind_eq_ok.mp hcost
    have hend := (word_eq_ok.mp hending).2.symm
    refine ⟨⟨rfl, rfl, allTimed_of_foldlM hstate, ?_, hend⟩, rfl, rfl, rfl⟩
    show start + access.duration = accessEnd
    rw [← (word_eq_ok.mp hstart).2]
    ring
  have hsplit := List.takeWhile_append_dropWhile (p := fun leg : Leg => !leg.isRide) (l := legs)
  rw [Itinerary.new] at h
  rcases dropWhile_eq_nil_or_ride legs with hafter | ⟨r, rest, hafter⟩
  · rw [hafter] at h hsplit
    rw [List.append_nil] at hsplit
    obtain ⟨accessEnd, hword, h⟩ := bind_eq_ok.mp h
    obtain ⟨⟨timed, free⟩, hplaced, h⟩ := bind_eq_ok.mp h
    obtain ⟨hfacts, rfl, rfl, rfl⟩ := hend h
    refine ⟨hfacts, .inl ⟨fun leg hleg => ?_, (word_eq_ok.mp hword).2.symm, hplaced⟩⟩
    rw [← hsplit] at hleg
    exact isRide_takeWhile leg hleg
  · rw [hafter] at h hsplit
    obtain ⟨boards, hboards, h⟩ := bind_eq_ok.mp h
    obtain ⟨boarding, hword, h⟩ := bind_eq_ok.mp h
    obtain ⟨⟨before, accessEnd⟩, hbefore, h⟩ := bind_eq_ok.mp h
    obtain ⟨⟨after, free⟩, hplaced, h⟩ := bind_eq_ok.mp h
    obtain ⟨hfacts, hlegs, rfl, rfl⟩ := hend h
    have hboarding : r.departs - slacks.board = boarding := by
      rw [← (word_eq_ok.mp hword).2, Ride.boardTime_eq_ok hboards]
    rw [← hboarding] at hbefore
    exact ⟨hfacts, .inr ⟨_, r, rest, before, after, hsplit.symm, isRide_takeWhile, hbefore, hplaced,
      hlegs⟩⟩

/-- An itinerary has the connectors and the parts that it is made of, its rides are between
positions of their trips, and it starts and ends when they ask for it. -/
theorem new_eq_ok (h : Itinerary.new access legs egress slacks tariff departure = .ok it) :
    it.access.leg = access ∧ it.egress.leg = egress ∧
      it.legs.map Leg.untimed = legs.map Leg.untimed ∧ AllTimed legs ∧
      it.Times slacks departure := by
  obtain ⟨⟨haccess, hegress, htimed, hstart, hend⟩, hparts⟩ := new_cases h
  -- the parts without their times, and what they ask for
  have huntimed : it.legs.map Leg.untimed = legs.map Leg.untimed ∧
      it.access.endTime = (readyBy slacks.board legs).getD (departure + access.duration) ∧
      it.egress.startTime = timeAfter slacks.alight it.access.endTime legs := by
    rcases hparts with ⟨hwalks, haccessEnd, hplaced⟩ |
      ⟨walks, r, rest, before, after, rfl, hwalks, hbefore, hplaced, hlegs⟩
    · obtain ⟨huntimed, hfree⟩ := legsAfter_eq_ok hplaced
      refine ⟨huntimed, ?_, hfree⟩
      rw [readyBy_eq_none hwalks, Option.getD_none]
      exact haccessEnd
    · obtain ⟨huntimed, haccessEnd⟩ := walksBefore_eq_ok hbefore hwalks
      obtain ⟨huntimed', hfree⟩ := legsAfter_eq_ok hplaced
      refine ⟨?_, ?_, ?_⟩
      · rw [hlegs, List.map_append, huntimed, huntimed', ← List.map_append]
      · rw [readyBy_ride hwalks, Option.getD_some]
        exact haccessEnd
      · rw [hfree]
        exact (timeAfter_ride it.access.endTime).symm
  obtain ⟨huntimed, haccessEnd, hfree⟩ := huntimed
  refine ⟨haccess, hegress, huntimed, htimed.of_untimed huntimed.symm, ?_, ?_⟩
  · rw [haccess, readyBy_congr huntimed, ← haccessEnd]
    exact hstart
  · rw [haccess, hegress, timeAfter_congr huntimed, hstart, ← hfree]
    exact hend

/-- The walks of an itinerary are placed next to its rides. -/
theorem new_arranged (h : Itinerary.new access legs egress slacks tariff departure = .ok it) :
    it.Arranged slacks := by
  obtain ⟨⟨-, -, htimed, -⟩, hparts⟩ := new_cases h
  rcases hparts with ⟨hwalks, -, hplaced⟩ |
    ⟨walks, first, others, before, after, rfl, hwalks, hbefore, hafter, hlegs⟩
  · obtain ⟨huntimed, -⟩ := legsAfter_eq_ok hplaced
    refine ⟨htimed, ((yields_legsAfter_placed (.of_walks hwalks)).of_ok hplaced).1,
      fun before r rest hlegs _ => ?_⟩
    have hride : .ride r ∈ legs := ride_mem_of_untimed huntimed (by simp [hlegs])
    cases hwalks _ hride
  · obtain ⟨huntimed, -⟩ := walksBefore_eq_ok hbefore hwalks
    obtain ⟨huntimed', -⟩ := legsAfter_eq_ok hafter
    obtain ⟨hplacedBefore, hready, -⟩ :=
      (yields_walksBefore_placed slacks.alight hwalks).of_ok hbefore
    have htimedAfter := (allTimed_append.mp (hlegs ▸ htimed)).2
    obtain ⟨hplacedAfter, -⟩ :=
      (yields_legsAfter_placed (htimedAfter.of_untimed huntimed'.symm)).of_ok hafter
    dsimp only at hplacedBefore hready hplacedAfter
    have hwalksBefore := walks_of_untimed huntimed.symm hwalks
    refine ⟨htimed, ?_, fun before' r rest hsame hwalks' => ?_⟩
    · rw [hlegs, placed_append]
      exact ⟨hplacedBefore, hplacedAfter.of_ride huntimed' _⟩
    · obtain ⟨none, after, rfl, hnone, -⟩ :=
        exists_ride_of_untimed huntimed'.symm (List.nil_append _).symm
      obtain rfl := List.map_eq_nil_iff.mp hnone.symm
      rw [hlegs, List.nil_append] at hsame
      obtain ⟨rfl, rfl⟩ := walks_eq_of_append hwalksBefore hwalks' hsame
      exact hready

end Itinerary

end JourneyPlanner
