import Mathlib.Data.List.Infix
import JourneyPlanner.Proofs.Route.Chunks
import JourneyPlanner.Proofs.Route.Soundness
import JourneyPlanner.Proofs.Search.Completeness

/-!
# Completeness of routes

Where no rules apply, a route that departs after a time finds an itinerary that arrives no later,
and with no more transfers, than any journey that a traveller could make: the itineraries that are
real are not only all that a route answers, but none of them arrives earlier than what it answers.

* `Network.IsJourney`: a journey that a traveller could make without the help of rules.
* `Network.IsJourney.onward`: what follows the leg from the origin.
* `Network.FindsBy`: a finish that is found by the end of an iteration.
* `Network.yields_route_from`: what can follow a leg at a start time leads to such a finish.
* `Network.yields_route_departing`: what a route has found by the end of the iteration from the
  start of a journey.
* `Network.yields_route_journey`: a route that boards no trip later than one that needs no rule
  answers journeys.
* `route_complete`: a route answers each journey with an itinerary at least as early.
-/

namespace JourneyPlanner

/-- A journey between two walks that departs after the time asked for, without changes that a rule
facilitates. From each part on, the seconds that its parts take are less than the time that stands
for unreached stops. -/
structure Network.IsJourney (net : Network) (request : Request) (access : Connector)
    (legs : List Leg) (egress : Connector) : Prop where
  realizes : net.Realizes request access legs egress
  regular : ∀ r, .ride r ∈ legs → r.constraint = .regular
  departs : ∀ r rest, legs = .ride r :: rest →
    request.time + access.duration + request.slacks.board ≤ r.departs
  short : ∀ rest, rest <:+ legs → Itinerary.spans rest + egress.duration < unreached

/-- When a journey is over: after the slack of its last ride and the walk to the destination. -/
def Request.endOf (request : Request) (access : Connector) (legs : List Leg) (egress : Connector) :
    Time :=
  Itinerary.timeAfter request.slacks.alight (request.time + access.duration) legs + egress.duration

namespace Network

variable {net : Network} {request : Request} {access egress : Connector} {legs : List Leg}
  {c : LabelScene} {time : Time} {started onBoard : Bool}

/-! ### The parts of a journey -/

theorem Offers.timed {date : Date} {r : Ride} (h : net.Offers date r) (hnet : net.Sound) :
    r.Timed := by
  obtain ⟨p, t, hp, ht, htrip, -, -, -, -, hboard, halight⟩ := h
  have hfits := (hnet.timetable_sound hp ht).fits r.trip htrip
  exact ⟨hfits.boardTime (Array.getElem?_eq_some_iff.mp hboard).1 .forward,
    hfits.alightTime (Array.getElem?_eq_some_iff.mp halight).1 .forward⟩

/-- The first part of a journey between walks is a ride at the stop of the walk from the origin. -/
theorem Realizes.exists_first (h : net.Realizes request access legs egress)
    (haccess : access.onBoard = false) (hegress : egress.onBoard = false) :
    ∃ r rest, legs = .ride r :: rest ∧ r.boardStop = access.stop := by
  have halternates := h.alternates
  have hjoined := h.joined
  cases legs with
  | nil =>
    rw [List.map_nil, List.nil_append, List.isChain_cons_cons, haccess, hegress] at halternates
    simp at halternates
  | cons leg rest =>
    rw [List.map_cons, List.cons_append, List.isChain_cons_cons, haccess] at halternates
    cases leg with
    | walk stroll => simp [Leg.isRide] at halternates
    | ride r => exact ⟨r, rest, rfl, hjoined.1⟩

/-- What follows a ride of a journey: nothing, another ride, or a walk and another ride. -/
theorem Realizes.after_ride {before rest : List Leg} {r : Ride}
    (h : net.Realizes request access (before ++ .ride r :: rest) egress)
    (hegress : egress.onBoard = false) :
    (rest = [] ∧ r.alightStop = egress.stop) ∨
    (∃ second after, rest = .ride second :: after ∧ net.IsChange request.slacks r [] second) ∨
    ∃ w second after, rest = .walk w :: .ride second :: after ∧
      net.IsChange request.slacks r [.walk w] second := by
  have halternates := h.alternates
  rw [List.map_append, List.append_assoc, ← List.cons_append] at halternates
  have halternates := halternates.right_of_append
  cases rest with
  | nil =>
    obtain ⟨_, -, -, hend⟩ := joined_append.mp h.joined
    exact .inl ⟨rfl, hend⟩
  | cons leg rest =>
    cases leg with
    | ride second =>
      exact .inr (.inl ⟨second, rest, rfl, h.change before r [] second rest rfl (by simp)⟩)
    | walk w =>
      simp only [List.map_cons, List.cons_append, Leg.isRide, List.isChain_cons_cons] at halternates
      cases rest with
      | nil =>
        rw [List.map_nil, List.nil_append, List.isChain_cons_cons, hegress] at halternates
        simp at halternates
      | cons leg rest =>
        cases leg with
        | walk w' => simp [Leg.isRide] at halternates
        | ride second =>
          refine .inr (.inr ⟨w, second, rest, rfl, h.change before r [.walk w] second rest rfl ?_⟩)
          intro leg hleg
          obtain rfl := List.mem_singleton.mp hleg
          rfl

/-- A change without the help of rules leaves time for all slacks. -/
theorem IsChange.departs {first second : Ride} {between : List Leg} {slacks : Slacks}
    (h : net.IsChange slacks first between second) (hfirst : first.Timed) (hsecond : second.Timed)
    (hregular : second.constraint = .regular) :
    first.arrives + slacks.alight + Itinerary.spans between + slacks.transfer + slacks.board ≤
      second.departs := by
  have htimely : ∀ {walk : Span}, slacks.Timely first walk second →
      first.arrives + slacks.alight + walk + slacks.transfer + slacks.board ≤ second.departs := by
    rintro walk ⟨arrival, departure, harrival, hdeparture, htimely⟩
    obtain rfl := Except.ok.inj (hfirst.alight.symm.trans harrival)
    obtain rfl := Except.ok.inj (hsecond.board.symm.trans hdeparture)
    rw [hregular] at htimely
    exact htimely
  rcases h with ⟨rfl, -, h⟩ | ⟨w, rfl, -, -, -, -, h⟩
  · exact htimely h
  · rw [Itinerary.spans_cons, Itinerary.spans_nil, Int.add_zero]
    exact htimely h

theorem runs_of_runsOn {date : Date} {trip : Trip} (hservices : c.services = net.servicesOn date)
    (h : net.RunsOn date trip) : c.runs trip = true := by
  obtain ⟨service, hservice, hdate⟩ := h
  rw [LabelScene.runs, hservices, List.contains_iff_mem, servicesOn, List.mem_map]
  refine ⟨(service, trip.service), List.mem_filter.mpr ⟨?_, by simpa using hdate⟩, rfl⟩
  rw [List.mem_zipIdx_iff_getElem?, Array.getElem?_toList]
  exact hservice

/-- A ride of a journey, and what follows it. -/
theorem Offers.onward {date : Date} {r : Ride} {rides : Nat} {duration : Span} {cost : Cost}
    {ending : Time} (h : net.Offers date r) (hd : c.direction = .forward)
    (hservices : c.services = net.servicesOn date) (hready : c.readyAt started time ≤ r.departs)
    (after : c.Onward net true r.alightStop true (r.arrives + c.slacks.alight) rides duration cost
      ending) (hshort : duration < unreached) :
    ∃ cost', c.Onward net started r.boardStop onBoard time (rides + 1)
      ((Leg.ride r).span + duration) cost' ending := by
  obtain ⟨p, t, hp, ht, htrip, hruns, hprecedes, hboards, halights, hstop, htarget⟩ := h
  have hspan : duration + c.direction.gap (c.direction.boardingAt r.trip r.boardPosition)
      (c.direction.alightingAt r.trip r.alightPosition) = (Leg.ride r).span + duration := by
    rw [hd, Int.add_comm]
    rfl
  have hafter : c.Onward net true r.alightStop true (c.direction.shift
      (c.direction.alightingAt r.trip r.alightPosition) (c.slacks.afterAlighting c.direction)) rides
      duration cost ending := by
    rw [hd]
    exact after
  rw [← hspan]
  refine ⟨_, .ride hp ht htrip (runs_of_runsOn hservices hruns) hstop ?_ htarget ?_ ?_ ?_ hafter
    hshort⟩
  · rw [hd]
    exact hboards
  · rw [hd]
    exact halights
  · rw [hd]
    exact decide_eq_true hprecedes
  · rw [hd, Direction.noLater_forward]
    exact hready

/-- A walk between two rides of a journey, and what follows it. -/
theorem HasWalk.onward {w : Stroll} {rides : Nat} {duration : Span} {cost : Cost} {ending : Time}
    (h : net.HasWalk ⟨w.source, w.target, w.duration⟩) (hleaves : w.source ≠ w.target)
    (hd : c.direction = .forward)
    (after : c.Onward net started w.target false (time + w.duration) rides duration cost ending)
    (hshort : duration < unreached) :
    ∃ cost', c.Onward net started w.source true time rides ((Leg.walk w).span + duration) cost'
      ending := by
  have hwalk : c.Onward net started _ true time _ _ _ _ :=
    .walk h (by rw [hd]; exact hleaves.symm) (by rw [hd]; exact after) hshort
  rw [hd, Int.add_comm] at hwalk
  exact ⟨_, hwalk⟩

/-- After each ride of a journey the next one can be boarded. -/
theorem IsJourney.ready (h : net.IsJourney request access legs egress) (hnet : net.Sound)
    (hd : c.direction = .forward) (hslacks : c.slacks = request.slacks) {first second : Ride}
    {between : List Leg} (hchange : net.IsChange request.slacks first between second)
    (hfirst : .ride first ∈ legs) (hsecond : .ride second ∈ legs) :
    c.readyAt true (first.arrives + c.slacks.alight + Itinerary.spans between) ≤
      second.departs := by
  have htimed : ∀ {r}, .ride r ∈ legs → r.Timed := fun hr => (h.realizes.offers _ hr).timed hnet
  have hdeparts := hchange.departs (htimed hfirst) (htimed hsecond) (h.regular second hsecond)
  rw [← hslacks] at hdeparts
  rw [LabelScene.readyAt, hd, if_pos rfl]
  show _ + (c.slacks.board + c.slacks.transfer) ≤ second.departs
  linarith

/-- What follows any arrival from which a ride of a journey can be boarded. -/
theorem IsJourney.onward_ride (h : net.IsJourney request access legs egress) (hnet : net.Sound)
    (hd : c.direction = .forward) (hslacks : c.slacks = request.slacks)
    (hservices : c.services = net.servicesOn request.date) (hmem : egress ∈ c.egress)
    (hegress : egress.onBoard = false) {before rest : List Leg} {r : Ride}
    (hlegs : legs = before ++ .ride r :: rest) (hready : c.readyAt started time ≤ r.departs) :
    ∃ cost, c.Onward net started r.boardStop onBoard time (Itinerary.ridesIn (.ride r :: rest))
      (Itinerary.spans (.ride r :: rest) + egress.duration) cost
      (Itinerary.timeAfter c.slacks.alight (r.arrives + c.slacks.alight) rest +
        egress.duration) := by
  induction hlength : rest.length using Nat.strong_induction_on
    generalizing before r rest started onBoard time with
  | h length ih =>
    have hoffers := h.realizes.offers r (by simp [hlegs])
    have hshort := h.short rest ⟨before ++ [.ride r], by simp [hlegs]⟩
    rw [Itinerary.ridesIn_ride, Itinerary.spans_cons, Int.add_assoc]
    suffices hrest : ∃ cost, c.Onward net true r.alightStop true (r.arrives + c.slacks.alight)
        (Itinerary.ridesIn rest) (Itinerary.spans rest + egress.duration) cost
        (Itinerary.timeAfter c.slacks.alight (r.arrives + c.slacks.alight) rest +
          egress.duration) by
      obtain ⟨cost, honward⟩ := hrest
      exact hoffers.onward hd hservices hready honward hshort
    subst hlegs
    rcases h.realizes.after_ride hegress with ⟨rfl, hstop⟩ |
      ⟨second, after, rfl, hchange⟩ | ⟨w, second, after, rfl, hchange⟩
    · have hlast : egress.stop < net.stopCount := by
        obtain ⟨p, t, hp, -, -, -, -, -, -, -, halight⟩ := hoffers
        rw [← hstop]
        exact hnet.stop_lt hp halight
      have hfinish : c.Onward net true _ true (r.arrives + c.slacks.alight) _ _ _ _ :=
        .finish hmem hegress hlast
      rw [hd] at hfinish
      rw [hstop, Itinerary.ridesIn_nil, Itinerary.spans_nil, Int.zero_add]
      exact ⟨_, hfinish⟩
    · have hready := h.ready hnet hd hslacks hchange (by simp) (by simp)
      rw [Itinerary.spans_nil, Int.add_zero] at hready
      have hsplit : before ++ .ride r :: .ride second :: after =
        (before ++ [.ride r]) ++ .ride second :: after := by simp
      have honward : ∃ cost, c.Onward net true second.boardStop true _ _ _ cost _ :=
        ih after.length (by rw [← hlength, List.length_cons]; omega) hsplit hready rfl
      rcases hchange with ⟨-, hstop, -⟩ | ⟨w, hw, -⟩
      · rw [hstop]
        exact honward
      · cases hw
    · have hready := h.ready hnet hd hslacks hchange (by simp) (by simp)
      rw [Itinerary.spans_cons, Itinerary.spans_nil, Int.add_zero] at hready
      have hsplit : before ++ .ride r :: .walk w :: .ride second :: after =
        (before ++ [.ride r, .walk w]) ++ .ride second :: after := by simp
      have honward : ∃ cost, c.Onward net true second.boardStop false _ _ _ cost _ :=
        ih after.length (by rw [← hlength, List.length_cons, List.length_cons]; omega)
        hsplit hready rfl
      obtain ⟨cost, honward⟩ := honward
      have hshort' := h.short (.ride second :: after) ⟨before ++ [.ride r, .walk w], by simp⟩
      rcases hchange with ⟨hw, -⟩ | ⟨w', hw, hsource, htarget, hleaves, hwalk, -⟩
      · cases hw
      · obtain rfl : w = w' := by simpa using hw
        rw [Itinerary.ridesIn_walk, Itinerary.spans_cons, Int.add_assoc, ← hsource]
        rw [← htarget] at honward
        exact HasWalk.onward hwalk hleaves hd honward hshort'

end Network

/-- What follows the leg from the origin in a journey. -/
theorem Network.IsJourney.onward {net : Network} {request : Request} {access egress : Connector}
    {legs : List Leg} {c : LabelScene} (h : net.IsJourney request access legs egress)
    (hnet : net.Sound) (hd : c.direction = .forward) (hslacks : c.slacks = request.slacks)
    (hservices : c.services = net.servicesOn request.date) (hmem : egress ∈ c.egress)
    (haccess : access.onBoard = false) (hegress : egress.onBoard = false) :
    (∃ cost, c.Onward net false access.stop false (request.time + access.duration)
      (Itinerary.ridesIn legs) (Itinerary.spans legs + egress.duration) cost
      (request.endOf access legs egress)) ∧ access.stop < net.stopCount := by
  obtain ⟨r, rest, rfl, hstop⟩ := h.realizes.exists_first haccess hegress
  have hready : c.readyAt false (request.time + access.duration) ≤ r.departs := by
    have hdeparts := h.departs r rest rfl
    rw [LabelScene.readyAt, hd, hslacks]
    show request.time + access.duration + (request.slacks.board + 0) ≤ r.departs
    rwa [Int.add_zero]
  have honward : ∃ cost, c.Onward net false r.boardStop false _ _ _ cost _ :=
    h.onward_ride hnet hd hslacks hservices hmem hegress (List.nil_append _).symm hready
  rw [hstop, hslacks] at honward
  obtain ⟨p, t, hp, -, -, -, -, -, -, hboard, -⟩ := h.realizes.offers r List.mem_cons_self
  rw [hstop] at hboard
  exact ⟨honward, hnet.stop_lt hp hboard⟩

/-- A search has found a finish by the end of the iteration from a start time. -/
def Network.FindsBy (net : Network) (request : Request) (tariff : Tariff) (start : Time)
    (e : Finish × JourneyCriteria) : Prop :=
  ∃ bounds times before s, request.startTimes = .ok times ∧ (before ++ [start]).Sublist times ∧
    (net.labelScene request tariff bounds).Iterations (net.labelCourse request)
      (net.labelProgress request).state (before ++ [start]) s ∧
    e ∈ s.finishes.entries

/-- What can follow a leg at a start time leads to a finish by the end of the iteration from there,
and the route answers an itinerary that is at least as good as that finish. -/
theorem Network.yields_route_from {net : Network} {request : Request} {leg : Connector}
    {rides : Nat} {duration : Span} {start ending : Time} (hnet : net.Sound)
    (hagrees : request.direction = .forward ∨ request.rules net = none)
    (hprompt : ∀ tariff bounds, (net.labelScene request tariff bounds).Prompt
      (net.labelCourse request)) (hslacks : request.slacks.Nonneg)
    (haccess : ∀ leg ∈ request.searchAccess, leg.onBoard = false)
    (hegress : ∀ leg ∈ request.searchEgress, leg.onBoard = false)
    (hstart : ∀ times, request.startTimes = .ok times → start ∈ times)
    (hleg : leg ∈ request.searchAccess) (hstop : leg.stop < net.stopCount)
    (honward : ∀ tariff bounds, Tariff.ofOptions request.costs = .ok tariff →
      net.bounds request tariff = .ok bounds →
      ∃ cost, (net.labelScene request tariff (some bounds)).Onward net false leg.stop false
        (request.direction.shift start leg.duration) rides duration cost ending)
    (hshort : duration < unreached) (hallowed : (net.labelCourse request).Allows rides) :
    Yields (net.route request) fun result => ∃ tariff e,
      Tariff.ofOptions request.costs = .ok tariff ∧ net.FindsBy request tariff start e ∧
      request.direction.NoLater e.2.time ending ∧ e.2.transfers ≤ rides - 1 ∧
      ∃ it ∈ result.itineraries, it.transferCount = (it.criteria request.direction).transfers ∧
        request.direction.dominatesJourney (it.criteria request.direction) e.2 = true := by
  refine (Network.yields_route hnet hagrees hslacks haccess hegress).mono ?_
  rintro result - ⟨tariff, bounds, times, htariff, hbounds, htimes, hanswers⟩
  have hbelow := (Network.yields_bounds hnet).of_ok hbounds
  obtain ⟨cost, honward⟩ := honward tariff bounds htariff hbounds
  rcases hanswers with ⟨hunreachable, -⟩ | ⟨states, hanswers⟩
  · -- what can follow the leg shows that the end can be reached
    obtain ⟨rideFirst, hremains, -⟩ := honward.remains
    obtain ⟨b, hb, -⟩ := hbelow hremains hallowed hshort
    rw [hunreachable leg hleg] at hb
    cases hb
  have hchunk : ∃ chunk ∈ request.timeChunks times, start ∈ chunk :=
    Request.exists_mem_timeChunks (hstart times htimes)
  obtain ⟨chunk, hchunk, hmem⟩ := hchunk
  have hsublist := Request.sublist_of_mem_timeChunks hchunk
  obtain ⟨before, after, rfl⟩ := List.append_of_mem hmem
  obtain ⟨s, hs, hiterations⟩ := hanswers.exists_mem hchunk
  rw [List.append_cons] at hiterations hsublist
  obtain ⟨s', hbefore, hkept⟩ := hiterations.exists_before
  have hwalks : leg ∈ (net.labelCourse request).walkingAccess :=
    List.mem_filter.mpr ⟨hleg, by rw [haccess leg hleg]; rfl⟩
  obtain ⟨e, he, htime, htransfers⟩ := hbefore.ends_onward rfl Labels.new_sound
    LabelScene.justified_new hnet Network.labelScene_of rfl (hprompt tariff (some bounds)) hslacks
    (by rintro _ ⟨⟩; exact hbelow) LabelScene.served_new hwalks hstop honward hshort hallowed
  -- a finish that is no longer kept at the end has given way to a better one
  obtain ⟨e', he', hdom'⟩ := Front.covers_iff.mp (hkept (Front.covers_of_mem he
    (request.direction.dominatesJourney_isOrder.refl _)))
  obtain ⟨it, hit, hdom⟩ := hanswers.covered s hs e' he'
  exact ⟨tariff, e, htariff, ⟨some bounds, times, before, s', htimes,
    (List.sublist_append_left _ _).trans hsublist, hbefore, he⟩, htime, htransfers, it, hit,
    hanswers.transferCount_eq hit, request.direction.dominatesJourney_isOrder.trans hdom hdom'⟩

/-- Without rules a route answers what can follow a leg at the time asked for with an itinerary that
ends no later, with no more transfers: whatever the window, the steps and the chunks are. -/
theorem Network.yields_route_onward {net : Network} {request : Request} {leg : Connector}
    {rides : Nat} {duration : Span} {ending : Time} (hnet : net.Sound)
    (hrules : request.rules net = none) (hslacks : request.slacks.Nonneg)
    (haccess : ∀ leg ∈ request.searchAccess, leg.onBoard = false)
    (hegress : ∀ leg ∈ request.searchEgress, leg.onBoard = false)
    (hleg : leg ∈ request.searchAccess) (hstop : leg.stop < net.stopCount)
    (honward : ∀ tariff bounds, Tariff.ofOptions request.costs = .ok tariff →
      net.bounds request tariff = .ok bounds →
      ∃ cost, (net.labelScene request tariff (some bounds)).Onward net false leg.stop false
        (request.direction.shift request.time leg.duration) rides duration cost ending)
    (hshort : duration < unreached) (hallowed : (net.labelCourse request).Allows rides) :
    Yields (net.route request) fun result => ∃ it ∈ result.itineraries,
      request.direction.NoLater (it.criteria request.direction).time ending ∧
        it.transferCount ≤ rides - 1 := by
  have hstart : ∀ times, request.startTimes = .ok times → request.time ∈ times := fun times h =>
    List.mem_of_getLast? (Request.yields_startTimes.of_ok h).1
  refine (Network.yields_route_from hnet (.inr hrules)
    (fun _ _ => LabelScene.prompt_of_unruled hnet hrules) hslacks haccess hegress hstart hleg hstop
    honward hshort hallowed).mono ?_
  rintro result - ⟨-, e, -, -, htime, htransfers, it, hit, hcount, hdom⟩
  obtain ⟨hsooner, hfewer, -⟩ := Direction.dominatesJourney_iff.mp hdom
  refine ⟨it, hit, hsooner.trans htime, ?_⟩
  rw [hcount]
  exact hfewer.trans htransfers

namespace Network

variable {net : Network} {request : Request} {access egress : Connector} {legs : List Leg}

/-- What a route that departs after a time and boards no trip later than one that needs no rule has
found by the end of the iteration from the start of a journey. -/
theorem yields_route_departing {start : Time} (hnet : net.Sound) (hd : request.direction = .forward)
    (hprompt : ∀ tariff bounds, (net.labelScene request tariff bounds).Prompt
      (net.labelCourse request)) (hslacks : request.slacks.Nonneg)
    (haccess : ∀ leg ∈ request.access, leg.onBoard = false)
    (hegress : ∀ leg ∈ request.egress, leg.onBoard = false)
    (hstart : ∀ times, request.startTimes = .ok times → start ∈ times)
    (hjourney : net.IsJourney { request with time := start } access legs egress)
    (hfew : Itinerary.ridesIn legs ≤ request.maxTransfers + 1) :
    Yields (net.route request) fun result => ∃ tariff e,
      Tariff.ofOptions request.costs = .ok tariff ∧ net.FindsBy request tariff start e ∧
      e.2.time ≤ { request with time := start }.endOf access legs egress ∧
      e.2.transfers ≤ Itinerary.ridesIn legs - 1 ∧
      ∃ it ∈ result.itineraries, it.transferCount ≤ e.2.transfers ∧ it.endTime ≤ e.2.time ∧
        it.cost ≤ e.2.cost := by
  have hmem : access ∈ request.access := hjourney.realizes.access_mem
  have hmem' : egress ∈ request.egress := hjourney.realizes.egress_mem
  obtain ⟨haccess', hegress'⟩ := Request.walks_of_walks haccess hegress
  have hsearchAccess : access ∈ request.searchAccess := by rwa [Request.searchAccess, hd]
  have hsearchEgress : egress ∈ request.searchEgress := by rwa [Request.searchEgress, hd]
  have hfollows := fun tariff bounds =>
    hjourney.onward (c := net.labelScene request tariff bounds) hnet hd rfl rfl hsearchEgress
      (haccess _ hmem) (hegress _ hmem')
  have hallowed : (net.labelCourse request).Allows (Itinerary.ridesIn legs) := by
    intro hless
    change min (request.maxTransfers + 1) 255 < 255 at hless
    show _ ≤ min (request.maxTransfers + 1) 255
    omega
  have honward : ∀ tariff bounds, ∃ cost, (net.labelScene request tariff (some bounds)).Onward net
      false access.stop false (request.direction.shift start access.duration) _ _ cost
      ({ request with time := start }.endOf access legs egress) := fun tariff bounds => by
    rw [hd]
    exact (hfollows tariff (some bounds)).1
  refine (yields_route_from hnet (.inl hd) hprompt hslacks haccess' hegress' hstart hsearchAccess
    (hfollows plainTariff none).2 (fun tariff bounds _ _ => honward tariff bounds)
    (hjourney.short legs (List.suffix_refl legs)) hallowed).mono ?_
  rintro result - ⟨tariff, e, htariff, hfinds, htime, htransfers, it, hit, hcount, hdom⟩
  obtain ⟨hsooner, hfewer, hcheaper⟩ := Direction.dominatesJourney_iff.mp hdom
  rw [hd, Direction.noLater_forward] at htime hsooner
  exact ⟨tariff, e, htariff, hfinds, htime, htransfers, it, hit, hcount.trans_le hfewer, hsooner,
    hcheaper⟩

/-- A route that departs after a time and boards no trip later than one that needs no rule answers
every journey with an itinerary that arrives no later, with no more transfers. -/
theorem yields_route_journey (hnet : net.Sound) (hd : request.direction = .forward)
    (hprompt : ∀ tariff bounds, (net.labelScene request tariff bounds).Prompt
      (net.labelCourse request)) (hslacks : request.slacks.Nonneg)
    (haccess : ∀ leg ∈ request.access, leg.onBoard = false)
    (hegress : ∀ leg ∈ request.egress, leg.onBoard = false)
    (hjourney : net.IsJourney request access legs egress)
    (hfew : Itinerary.ridesIn legs ≤ request.maxTransfers + 1) :
    Yields (net.route request) fun result => ∃ it ∈ result.itineraries,
      it.transferCount ≤ Itinerary.ridesIn legs - 1 ∧
        it.endTime ≤ request.endOf access legs egress := by
  have hstart : ∀ times, request.startTimes = .ok times → request.time ∈ times := fun times h =>
    List.mem_of_getLast? (Request.yields_startTimes.of_ok h).1
  refine (yields_route_departing hnet hd hprompt hslacks haccess hegress hstart hjourney
    hfew).mono ?_
  rintro result - ⟨-, e, -, -, htime, htransfers, it, hit, hfewer, hsooner, -⟩
  exact ⟨it, hit, hfewer.trans htransfers, hsooner.trans htime⟩

end Network

/-- A route that departs after a time answers every journey with an itinerary that arrives no later,
with no more transfers: whatever the window, the steps and the chunks are. -/
theorem route_complete {draft : Draft} {net : Network} {request : Request}
    {access egress : Connector} {legs : List Leg} (hbuild : draft.build = .ok net)
    (hd : request.direction = .forward) (hrules : request.rules net = none)
    (hslacks : request.slacks.Nonneg) (haccess : ∀ leg ∈ request.access, leg.onBoard = false)
    (hegress : ∀ leg ∈ request.egress, leg.onBoard = false)
    (hjourney : net.IsJourney request access legs egress)
    (hfew : Itinerary.ridesIn legs ≤ request.maxTransfers + 1) :
    Yields (net.route request) fun result => ∃ it ∈ result.itineraries,
      it.transferCount ≤ Itinerary.ridesIn legs - 1 ∧
        it.endTime ≤ request.endOf access legs egress := by
  have hnet := Draft.build_sound hbuild
  exact Network.yields_route_journey hnet hd
    (fun _ _ => LabelScene.prompt_of_unruled hnet hrules) hslacks haccess hegress hjourney hfew

/-- Without rules, the red line, the walk and the second blue trip are a journey, and the answer to
the request arrives no later. -/
theorem route_complete_twoLines : ∃ net access legs egress, twoLines.build = .ok net ∧
    (fromAToD .forward false).direction = .forward ∧
    (fromAToD .forward false).rules net = none ∧ (fromAToD .forward false).slacks.Nonneg ∧
    (∀ leg ∈ (fromAToD .forward false).access, leg.onBoard = false) ∧
    (∀ leg ∈ (fromAToD .forward false).egress, leg.onBoard = false) ∧
    net.IsJourney (fromAToD .forward false) access legs egress ∧
    Itinerary.ridesIn legs = 2 ∧
    ∃ result, net.route (fromAToD .forward false) = .ok result ∧ ∃ it ∈ result.itineraries,
      it.transferCount ≤ 1 ∧ it.endTime ≤ 39500 := by
  have hfinds : twoLines.finds (fromAToD .forward false) (fun _ it => decide (
      (∀ leg ∈ it.legs, ∀ r, leg.ride? = some r → r.constraint = .regular) ∧
      (∀ r ∈ (it.legs.head?.bind Leg.ride?),
        (fromAToD .forward false).time + it.access.leg.duration +
          (fromAToD .forward false).slacks.board ≤ r.departs) ∧
      (∀ rest ∈ it.legs.tails, Itinerary.spans rest + it.egress.leg.duration < unreached) ∧
      Itinerary.ridesIn it.legs = 2 ∧
      (fromAToD .forward false).endOf it.access.leg it.legs it.egress.leg = 39500)) = true := by
    decide +kernel
  obtain ⟨net, result, it, hbuild, hroute, hit, hfacts⟩ := Draft.exists_of_finds hfinds
  obtain ⟨hregular, hdeparts, hshort, hrides, hend⟩ := of_decide_eq_true hfacts
  have hnet := Draft.build_sound hbuild
  obtain ⟨tariff, bounds, times, progress, e, hrun, he, hitinerary⟩ :=
    Network.exists_finish_of_mem_route hroute hit
  have hreal := LabelScene.isReal_of_itinerary hitinerary he
    ((Network.yields_justified hnet).of_ok hrun) hnet Network.labelScene_for rfl
  have hjourney : net.IsJourney (fromAToD .forward false) it.access.leg it.legs it.egress.leg :=
    { realizes := hreal
      regular := fun r hr => hregular _ hr r rfl
      departs := fun r rest hlegs => hdeparts r (by simp [hlegs, Leg.ride?])
      short := fun rest hrest => hshort rest ((List.mem_tails _ _).mpr hrest) }
  have hslacks : (fromAToD .forward false).slacks.Nonneg := ⟨by decide, by decide, by decide⟩
  have hcomplete := (route_complete hbuild rfl rfl hslacks (by decide) (by decide) hjourney
    (by rw [hrides]; decide)).of_ok hroute
  rw [hrides, hend] at hcomplete
  exact ⟨net, _, _, _, hbuild, rfl, rfl, hslacks, by decide, by decide, hjourney, hrides, result,
    hroute, hcomplete⟩

end JourneyPlanner
