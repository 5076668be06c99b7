import JourneyPlanner.Proofs.Route.Journeys
import JourneyPlanner.Proofs.Route.Rates

/-!
# How good the itineraries of a route are

Of two arrivals at a stop a search keeps only one that is no later and no dearer than the other, and
does not ask what the wait for the next ride will cost. So it may lose the cheapest way to arrive
when it does, but never by more than the prices of the same time and the same rides differ: where a
second costs the same however it is spent, nothing is better than what a route answers.

* `Network.criteria_eq_of_mem_route`: no itinerary of a route is as good as another one.
* `Network.FindsBy.cost_le`: what a finish costs that is found by the end of an iteration.
* `Network.yields_route_price`: what an itinerary costs that a route answers to a journey.
* `route_optimal`: how much better than an itinerary of a route a journey can be.
-/

namespace JourneyPlanner

/-- Of the best itineraries none is as good as another one. -/
theorem Itinerary.criteria_eq_of_mem_best {d : Direction} {itineraries : List Itinerary}
    {it it' : Itinerary} (hit : it ∈ best d itineraries) (hit' : it' ∈ best d itineraries)
    (hdom : d.dominatesJourney (it.criteria d) (it'.criteria d) = true) :
    it.criteria d = it'.criteria d := by
  have hcriteria : ∀ {it}, it ∈ best d itineraries → ∃ e ∈ (Front.ofList d.dominatesJourney
      (itineraries.map fun it => (it, it.criteria d))).entries, e.2 = it.criteria d := by
    intro it hit
    obtain ⟨e, he, rfl⟩ := List.mem_map.mp hit
    obtain ⟨it, -, rfl⟩ := List.mem_map.mp (Front.mem_ofList he)
    exact ⟨_, he, rfl⟩
  obtain ⟨e, he, hcriteria₁⟩ := hcriteria hit
  obtain ⟨e', he', hcriteria₂⟩ := hcriteria hit'
  rw [← hcriteria₁, ← hcriteria₂] at hdom ⊢
  rw [Front.clean_ofList.eq_of_dom he he' hdom]

namespace Network

variable {net : Network} {request : Request} {result : RouteResult} {it it' : Itinerary}
  {access egress : Connector} {legs : List Leg} {tariff : Tariff} {low high : Rate} {start : Time}

/-- No itinerary of a route is as good as another one. -/
theorem criteria_eq_of_mem_route (h : net.route request = .ok result)
    (hit : it ∈ result.itineraries) (hit' : it' ∈ result.itineraries)
    (hdom : request.direction.dominatesJourney (it.criteria request.direction)
      (it'.criteria request.direction) = true) :
    it.criteria request.direction = it'.criteria request.direction := by
  obtain ⟨-, -, -, found, -, -, hbest⟩ := route_inv h
  rw [← List.map_flatMap] at hbest
  rw [hbest] at hit hit'
  exact Itinerary.criteria_eq_of_mem_best hit hit' hdom

/-- All transfers of the itineraries of a route are compared. -/
theorem yields_transferCount (hnet : net.Sound)
    (hagrees : request.direction = .forward ∨ request.rules net = none)
    (hslacks : request.slacks.Nonneg) (haccess : ∀ leg ∈ request.access, leg.onBoard = false)
    (hegress : ∀ leg ∈ request.egress, leg.onBoard = false) :
    Yields (net.route request) fun result => ∀ it ∈ result.itineraries,
      it.transferCount = (it.criteria request.direction).transfers := by
  obtain ⟨haccess', hegress'⟩ := Request.walks_of_walks haccess hegress
  refine (yields_route hnet hagrees hslacks haccess' hegress').mono ?_
  rintro result - ⟨tariff, bounds, times, -, -, -, ⟨-, hnone⟩ | ⟨states, hanswers⟩⟩ it hit
  · rw [hnone] at hit
    cases hit
  · exact hanswers.transferCount_eq hit

/-- A finish that is found by the end of the iteration from a start time costs no more than the
higher rate says of the time since that start. -/
theorem FindsBy.cost_le {e : Finish × JourneyCriteria} (h : net.FindsBy request tariff start e)
    (hpriced : net.PricedBetween request tariff low high) (hnet : net.Sound)
    (hrules : request.rules net = none) (hslacks : request.slacks.Nonneg)
    (haccess : ∀ leg ∈ request.access, leg.onBoard = false)
    (hegress : ∀ leg ∈ request.egress, leg.onBoard = false) :
    e.2.cost ≤ high.price (request.direction.gap start e.2.time) (e.2.transfers + 1) := by
  obtain ⟨bounds, times, before, s, htimes, hsublist, hiterations, he⟩ := h
  obtain ⟨haccess', hegress'⟩ := Request.walks_of_walks haccess hegress
  -- the iterations so far started no earlier
  have hlater : ∀ time ∈ before ++ [start], request.direction.NoLater start time := by
    have hsorted := (Request.startTimes_sorted htimes).sublist hsublist
    intro time htime
    rcases List.mem_append.mp htime with hbefore | hlast
    · exact (List.pairwise_append.mp hsorted).2.2 time hbefore start List.mem_cons_self
    · rw [List.mem_singleton.mp hlast]
      exact .refl
  have hpriced : (net.labelCourse request).network.PricedBetween request
    (net.labelScene request tariff bounds).tariff low high := hpriced
  exact hpriced.finish_cost_le (hiterations.sound Labels.new_sound)
    (hiterations.justified Labels.new_sound LabelScene.justified_new) hnet labelScene_for hrules
    hslacks (hiterations.departs LabelScene.departs_new) hlater haccess' hegress' maxRounds_le he

/-- With steps of a second, a route that departs after a time answers a journey from any time in its
window with an itinerary that ends no later, with no more transfers, and costs no more than the
higher rate says of the journey. -/
theorem yields_route_price (hnet : net.Sound) (hd : request.direction = .forward)
    (hrules : request.rules net = none) (hstep : request.step = 1) (hslacks : request.slacks.Nonneg)
    (haccess : ∀ leg ∈ request.access, leg.onBoard = false)
    (hegress : ∀ leg ∈ request.egress, leg.onBoard = false)
    (htariff : Tariff.ofOptions request.costs = .ok tariff)
    (hpriced : net.PricedBetween request tariff low high)
    (hjourney : net.IsJourney { request with time := start } access legs egress)
    (hstart : request.time ≤ start) (hwindow : start ≤ request.time + request.window)
    (hfew : Itinerary.ridesIn legs ≤ request.maxTransfers + 1) :
    Yields (net.route request) fun result => ∃ it ∈ result.itineraries,
      it.transferCount ≤ Itinerary.ridesIn legs - 1 ∧
      it.endTime ≤ { request with time := start }.endOf access legs egress ∧
      it.cost ≤ high.price ({ request with time := start }.endOf access legs egress - start)
        (Itinerary.ridesIn legs) := by
  have hstarts : ∀ times, request.startTimes = .ok times → start ∈ times := fun times h => by
    refine Request.mem_startTimes h hstep ?_ ?_ <;> rw [hd]
    · exact Direction.noLater_forward.mpr hstart
    · exact sub_left_le_of_le_add hwindow
  obtain ⟨r, rest, hlegs, -⟩ := hjourney.realizes.exists_first
    (haccess _ hjourney.realizes.access_mem) (hegress _ hjourney.realizes.egress_mem)
  have hrides : Itinerary.ridesIn legs ≠ 0 := by
    rw [hlegs, Itinerary.ridesIn_ride]
    exact Nat.succ_ne_zero _
  refine (yields_route_departing hnet hd (fun _ _ => LabelScene.prompt_of_unruled hnet hrules)
    hslacks haccess hegress hstarts hjourney hfew).mono ?_
  rintro result - ⟨tariff', e, htariff', hfinds, htime, htransfers, it, hit, hfewer, hsooner,
    hcheaper⟩
  obtain rfl := Except.ok.inj (htariff.symm.trans htariff')
  refine ⟨it, hit, hfewer.trans htransfers, hsooner.trans htime, hcheaper.trans ?_⟩
  have hcost := hfinds.cost_le hpriced hnet hrules hslacks haccess hegress
  rw [hd] at hcost
  refine hcost.trans (Rate.price_mono hpriced.high_nonneg hpriced.ride_nonneg ?_ ?_)
  · exact Int.sub_le_sub_right htime start
  · omega

/-- What is a journey is not a matter of costs. -/
theorem IsJourney.of_costs {costs : CostOptions}
    (h : net.IsJourney { request with costs } access legs egress) :
    net.IsJourney request access legs egress where
  realizes := { h.realizes with }
  regular := h.regular
  departs := h.departs
  short := h.short

/-- A journey is one after any time that leaves enough for its first ride. -/
theorem IsJourney.departs_at (h : net.IsJourney request access legs egress)
    (hstart : ∀ r rest, legs = .ride r :: rest →
      start + access.duration + request.slacks.board ≤ r.departs) :
    net.IsJourney { request with time := start } access legs egress where
  realizes := { h.realizes with }
  regular := h.regular
  departs := hstart
  short := h.short

end Network

/-- A journey that ends no later than an itinerary of a route, with no more transfers, is cheaper by
no more than the prices of its time and rides at the two rates differ. Where these are one and the
same, it is no better in any respect. -/
theorem route_optimal {draft : Draft} {net : Network} {request : Request} {tariff : Tariff}
    {low high : Rate} {access egress : Connector} {legs : List Leg} {departure : Time}
    {journey : Itinerary} (hbuild : draft.build = .ok net) (hd : request.direction = .forward)
    (hrules : request.rules net = none) (hstep : request.step = 1) (hslacks : request.slacks.Nonneg)
    (haccess : ∀ leg ∈ request.access, leg.onBoard = false)
    (hegress : ∀ leg ∈ request.egress, leg.onBoard = false)
    (htariff : Tariff.ofOptions request.costs = .ok tariff)
    (hpriced : net.PricedBetween request tariff low high)
    (hjourney : net.IsJourney request access legs egress)
    (hnew : Itinerary.new access legs egress request.slacks tariff departure = .ok journey)
    (hwindow : journey.startTime ≤ request.time + request.window)
    (hfew : Itinerary.ridesIn legs ≤ request.maxTransfers + 1) :
    Yields (net.route request) fun result => ∀ it ∈ result.itineraries,
      journey.endTime ≤ it.endTime → journey.transferCount ≤ it.transferCount →
      it.cost ≤ journey.cost + (high.price (journey.endTime - journey.startTime)
        (Itinerary.ridesIn legs) - low.price (journey.endTime - journey.startTime)
        (Itinerary.ridesIn legs)) ∧
      (low = high → journey.cost ≤ it.cost → journey.endTime = it.endTime ∧
        journey.transferCount = it.transferCount ∧ journey.cost = it.cost) := by
  have hnet := Draft.build_sound hbuild
  have hreal := hjourney.realizes
  have hwalks := haccess _ hreal.access_mem
  have hwalks' := hegress _ hreal.egress_mem
  obtain ⟨r, rest, rfl, -⟩ := hreal.exists_first hwalks hwalks'
  have htimed : Itinerary.AllTimed (.ride r :: rest) := fun r hr => (hreal.offers r hr).timed hnet
  obtain ⟨haccess', hegress', huntimed, hstart, hend, -⟩ :=
    (Itinerary.yields_new_ride hwalks htimed).of_ok hnew
  have hleast := hpriced.price_le_cost hnet hslacks hwalks hwalks' hjourney hnew
  have hcount : journey.transferCount = Itinerary.ridesIn (.ride r :: rest) - 1 :=
    LabelScene.transferCount_eq (by rw [haccess', hwalks]) (by rw [hegress', hwalks']) huntimed
  have hdeparts := hjourney.departs r rest rfl
  have hlater : net.IsJourney { request with time := journey.startTime } access (.ride r :: rest)
      egress := hjourney.departs_at fun r' _ hlegs => by
    obtain rfl := Leg.ride.inj (List.cons.inj hlegs).1
    linarith
  have hending : journey.endTime =
      { request with time := journey.startTime }.endOf access (.ride r :: rest) egress := hend
  refine ((Network.yields_route_price hnet hd hrules hstep hslacks haccess hegress htariff hpriced
    hlater (by linarith) hwindow hfew).and (Network.yields_transferCount hnet (.inl hd) hslacks
    haccess hegress)).mono ?_
  rintro result hroute ⟨⟨best, hbest, hfewer, hsooner, hcost⟩, hcompared⟩ it hit htime htransfers
  rw [← hending] at hsooner hcost
  rw [← hcount] at hfewer
  by_cases hcheaper : best.cost ≤ it.cost
  · -- the itinerary is then the one that the route answers to the journey
    have hcriteria : best.criteria request.direction = it.criteria request.direction := by
      refine Network.criteria_eq_of_mem_route hroute hbest hit ?_
      rw [hd, Direction.dominatesJourney_iff, Direction.noLater_forward]
      exact ⟨hsooner.trans htime, min_le_min_right _ (hfewer.trans htransfers), hcheaper⟩
    have hends : best.endTime = it.endTime := by
      rw [hd] at hcriteria
      exact congrArg JourneyCriteria.time hcriteria
    have hcounts : best.transferCount = it.transferCount := by
      rw [hcompared best hbest, hcompared it hit, hcriteria]
    have hcosts : best.cost = it.cost := congrArg JourneyCriteria.cost hcriteria
    refine ⟨by linarith, fun heven hno => ?_⟩
    subst heven
    exact ⟨le_antisymm htime (hends ▸ hsooner), le_antisymm htransfers (hcounts ▸ hfewer),
      by linarith⟩
  · refine ⟨by linarith, fun heven hno => ?_⟩
    subst heven
    exact absurd (hcost.trans (hleast.trans hno)) hcheaper

/-- Two ways from A to S, where a trip leaves after half an hour: by X, which is sooner and has the
longer walk, and by Y. -/
def twoWays : Draft :=
  { Draft.new Draft.defaultDate with
    routes := #[⟨"X", 0⟩, ⟨"Y", 0⟩, ⟨"S", 0⟩]
    trips := #[
      ⟨"X 1", 0, Draft.defaultCalendar,
        [⟨"A", 36000, 36000, .boardAndAlight⟩, ⟨"X", 36300, 36300, .boardAndAlight⟩]⟩,
      ⟨"Y 1", 1, Draft.defaultCalendar,
        [⟨"A", 36000, 36000, .boardAndAlight⟩, ⟨"Y", 36900, 36900, .boardAndAlight⟩]⟩,
      ⟨"S 1", 2, Draft.defaultCalendar,
        [⟨"S", 37800, 37800, .boardAndAlight⟩, ⟨"C", 39600, 39600, .boardAndAlight⟩]⟩]
    walks := [⟨"X", "S", 300⟩, ⟨"Y", "S", 60⟩] }

def fromAAtTen : Request :=
  { date := Draft.defaultDate
    direction := .forward
    time := 36000
    step := 1
    access := [⟨0, 0, 0, false⟩]
    egress := [⟨4, 0, 0, false⟩]
    useRules := false }

theorem takesTime_twoWays {net : Network} (hbuild : twoWays.build = .ok net) : net.TakesTime := by
  have hbuilds : twoWays.builds (fun net =>
      (net.timetables.all fun t => t.trips.all fun trip => decide (∀ position < trip.arrivals.size,
        ∀ before < position, trip.departures.getD before 0 ≤ trip.arrivals.getD position 0)) &&
      net.walksFrom.all fun walks => walks.all fun w => decide (0 ≤ w.duration)) = true := by
    decide +kernel
  obtain ⟨_, hbuild', hfacts⟩ := Draft.exists_of_builds hbuilds
  obtain rfl := Except.ok.inj (hbuild.symm.trans hbuild')
  simp only [Bool.and_eq_true, Array.all_eq_true', List.all_eq_true, decide_eq_true_eq] at hfacts
  obtain ⟨htrips, hwalks⟩ := hfacts
  exact ⟨htrips, fun w ⟨walks, hget, hw⟩ => hwalks walks (Array.mem_of_getElem? hget) w hw⟩

/-- By default walking a second costs twice as much as waiting or riding. -/
theorem priced_twoWays {net : Network} (hbuild : twoWays.build = .ok net) :
    net.PricedBetween fromAAtTen plainTariff ⟨100, 60000⟩ ⟨200, 60000⟩ := by
  have hstops : ∀ stop, plainTariff.stopCost stop = 0 := fun stop => by
    simp [plainTariff, Tariff.stopCost]
  have htransit : ∀ reluctance, plainTariff.transitFactor reluctance = 100 := fun reluctance => by
    simp [plainTariff, Tariff.transitFactor, defaultTransitFactor]
  refine .of_factors (Draft.build_sound hbuild) (takesTime_twoWays hbuild) (by decide) (by decide)
    (by decide) (by decide) (fun reluctance => ?_) (fun first stop stop' => ?_) (fun leg hleg => ?_)
  · rw [htransit]
    decide
  · rw [hstops, hstops]
    cases first <;> decide
  · have hlegs : leg = ⟨0, 0, 0, false⟩ ∨ leg = ⟨4, 0, 0, false⟩ := by
      simpa [fromAAtTen] using hleg
    rcases hlegs with rfl | rfl <;> exact ⟨le_rfl, le_rfl⟩

/-- The answer goes by X. The journey by Y, which is found if walking costs more, starts and ends at
the same times, and waits for four minutes that the answer walks. -/
theorem route_optimal_twoWays : ∃ net access legs egress journey result it,
    twoWays.build = .ok net ∧ fromAAtTen.direction = .forward ∧ fromAAtTen.rules net = none ∧
    fromAAtTen.step = 1 ∧ fromAAtTen.slacks.Nonneg ∧
    (∀ leg ∈ fromAAtTen.access, leg.onBoard = false) ∧
    (∀ leg ∈ fromAAtTen.egress, leg.onBoard = false) ∧
    Tariff.ofOptions fromAAtTen.costs = .ok plainTariff ∧
    net.PricedBetween fromAAtTen plainTariff ⟨100, 60000⟩ ⟨200, 60000⟩ ∧
    net.IsJourney fromAAtTen access legs egress ∧
    Itinerary.new access legs egress fromAAtTen.slacks plainTariff 36000 = .ok journey ∧
    journey.startTime ≤ fromAAtTen.time + fromAAtTen.window ∧
    Itinerary.ridesIn legs ≤ fromAAtTen.maxTransfers + 1 ∧
    net.route fromAAtTen = .ok result ∧ it ∈ result.itineraries ∧
    journey.endTime ≤ it.endTime ∧ journey.transferCount ≤ it.transferCount ∧
    it.cost = journey.cost + 24000 ∧ it.cost ≤ journey.cost + 360000 := by
  have hfinds : twoWays.finds { fromAAtTen with costs := { walk := 10 } } (fun net found =>
      decide ((∀ rest ∈ found.legs.tails,
        Itinerary.spans rest + found.egress.leg.duration < unreached) ∧
        Itinerary.ridesIn found.legs = 2) &&
      match Itinerary.new found.access.leg found.legs found.egress.leg fromAAtTen.slacks plainTariff
          36000 with
      | .ok journey =>
        match net.route fromAAtTen with
        | .ok result => result.itineraries.any fun it => decide (
            journey.startTime = 36000 ∧ journey.endTime = 39600 ∧ it.endTime = 39600 ∧
            journey.transferCount ≤ it.transferCount ∧ it.cost = journey.cost + 24000)
        | .error _ => false
      | .error _ => false) = true := by
    decide +kernel
  obtain ⟨net, other, found, hbuild, hother, hfound, hfacts⟩ := Draft.exists_of_finds hfinds
  obtain ⟨hparts, hfacts⟩ := Bool.and_eq_true_iff.mp hfacts
  obtain ⟨hshort, hrides⟩ := of_decide_eq_true hparts
  have hjourney : net.IsJourney fromAAtTen found.access.leg found.legs found.egress.leg :=
    .of_costs (Network.isJourney_of_mem_route (Draft.build_sound hbuild) rfl rfl (by decide)
      (by decide) hother hfound fun rest hrest => hshort rest ((List.mem_tails _ _).mpr hrest)).1
  split at hfacts
  case h_2 => cases hfacts
  rename_i journey hnew
  split at hfacts
  case h_2 => cases hfacts
  rename_i result hroute
  obtain ⟨it, hit, hfacts⟩ := List.any_eq_true.mp hfacts
  obtain ⟨hstart, hend, hends, htransfers, hcost⟩ := of_decide_eq_true hfacts
  have hslacks : fromAAtTen.slacks.Nonneg := ⟨by decide, by decide, by decide⟩
  have htariff : Tariff.ofOptions fromAAtTen.costs = .ok plainTariff := by decide +kernel
  have hwindow : journey.startTime ≤ fromAAtTen.time + fromAAtTen.window := by
    rw [hstart]
    decide
  have hfew : Itinerary.ridesIn found.legs ≤ fromAAtTen.maxTransfers + 1 := by
    rw [hrides]
    decide
  have htime : journey.endTime ≤ it.endTime := by rw [hend, hends]
  have hoptimal := ((route_optimal hbuild rfl rfl rfl hslacks (by decide) (by decide) htariff
    (priced_twoWays hbuild) hjourney hnew hwindow hfew).of_ok hroute it hit htime htransfers).1
  rw [hstart, hend, hrides] at hoptimal
  exact ⟨net, _, _, _, journey, result, it, hbuild, rfl, rfl, rfl, hslacks, by decide, by decide,
    htariff, priced_twoWays hbuild, hjourney, hnew, hwindow, hfew, hroute, hit, htime, htransfers,
    hcost, hoptimal⟩

end JourneyPlanner
