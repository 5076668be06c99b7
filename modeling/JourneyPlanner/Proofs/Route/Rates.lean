import JourneyPlanner.Proofs.Route.Completeness
import JourneyPlanner.Proofs.Search.Extensions

/-!
# Rates

The cost of a journey depends on how its time is spent. Where every part costs between what two
rates say of its seconds, and every boarding between what they say of a ride, a journey costs no
less than the lower rate says of it as a whole, and a label of a search no more than the higher one
says of the time since the earliest start.

* `Rate.price`: what a number of seconds and rides cost at a rate.
* `Network.PricedBetween`: all parts of journeys cost between two rates.
* `Network.PricedBetween.of_factors`: it is enough that all factors are between them.
* `Network.PricedBetween.price_le_cost`: what a journey costs at least.
* `Network.PricedBetween.label_cost_le`, `Network.PricedBetween.finish_cost_le`: what a label and a
  finish of a search cost at most.
-/

namespace JourneyPlanner

/-- What a second and a ride cost, however they are spent. -/
structure Rate where
  second : Cost
  ride : Cost

namespace Rate

/-- What a number of seconds and rides cost at a rate. -/
def price (rate : Rate) (duration : Span) (rides : Nat) : Cost :=
  rate.second * duration + rate.ride * rides

/-- A span of time costs between two rates. -/
def Enclose (low high : Rate) (cost : Cost) (span : Span) : Prop :=
  low.second * span ≤ cost ∧ cost ≤ high.second * span

variable {rate : Rate} {duration duration' : Span} {rides rides' : Nat} {a b c : Time}

theorem price_add : rate.price (duration + duration') (rides + rides') =
    rate.price duration rides + rate.price duration' rides' := by
  simp only [price, Nat.cast_add]
  ring

/-- What is spent from one time to another is spent before and after any time between them. -/
theorem price_sub_add_price_sub : rate.price (b - a) rides + rate.price (c - b) rides' =
    rate.price (c - a) (rides + rides') := by
  rw [← price_add, add_comm, sub_add_sub_cancel]

theorem price_mono (hsecond : 0 ≤ rate.second) (hride : 0 ≤ rate.ride)
    (hduration : duration ≤ duration') (hrides : rides ≤ rides') :
    rate.price duration rides ≤ rate.price duration' rides' :=
  add_le_add (mul_le_mul_of_nonneg_left hduration hsecond)
    (mul_le_mul_of_nonneg_left (Nat.cast_le.mpr hrides) hride)

theorem enclose_of_factor {low high : Rate} {factor : Int}
    (hfactor : low.second ≤ factor ∧ factor ≤ high.second) (hduration : 0 ≤ duration) :
    low.Enclose high (factor * duration) duration :=
  ⟨mul_le_mul_of_nonneg_right hfactor.1 hduration, mul_le_mul_of_nonneg_right hfactor.2 hduration⟩

end Rate

/-- The times of a trip never go back: it arrives nowhere before it has departed from the positions
before. -/
def Trip.NeverGoesBack (trip : Trip) : Prop :=
  ∀ position < trip.arrivals.size, ∀ before < position,
    trip.departures.getD before 0 ≤ trip.arrivals.getD position 0

instance (trip : Trip) : Decidable trip.NeverGoesBack :=
  inferInstanceAs (Decidable (∀ position < trip.arrivals.size, ∀ before < position, _))

/-- No trip arrives before it has departed, and no walk takes less than no time. -/
structure Network.TakesTime (net : Network) : Prop where
  trips : ∀ t ∈ net.timetables, ∀ trip ∈ t.trips, ∀ position < trip.arrivals.size,
    ∀ before < position, trip.departures.getD before 0 ≤ trip.arrivals.getD position 0
  walks : ∀ w, net.HasWalk w → 0 ≤ w.duration

namespace Network.Offers

variable {net : Network} {date : Date} {r : Ride}

/-- A ride on a trip whose times never go back takes no negative time. -/
theorem departs_le_arrives (h : net.Offers date r) (hnet : net.Sound)
    (htrip : r.trip.NeverGoesBack) : r.departs ≤ r.arrives := by
  obtain ⟨p, t, hp, ht, hmem, -, hprecedes, -, -, -, halight⟩ := h
  have hfits := (hnet.timetable_sound hp ht).fits r.trip hmem
  refine htrip _ ?_ _ hprecedes
  rw [hfits.arrivals_size]
  exact (Array.getElem?_eq_some_iff.mp halight).1

theorem span_nonneg (h : net.Offers date r) (hnet : net.Sound) (hforward : net.TakesTime) :
    0 ≤ (Leg.ride r).span := by
  obtain ⟨p, t, -, ht, hmem, -⟩ := id h
  exact sub_nonneg.mpr
    (h.departs_le_arrives hnet (hforward.trips t (Array.mem_of_getElem? ht) r.trip hmem))

end Network.Offers

/-- All parts of the journeys of a request cost between two rates: waits, walks, rides and legs what
their seconds cost, and boardings, with the stops of the ride, what a ride costs. -/
structure Network.PricedBetween (net : Network) (request : Request) (tariff : Tariff)
    (low high : Rate) : Prop where
  second_nonneg : 0 ≤ low.second
  ride_nonneg : 0 ≤ high.ride
  wait : low.second ≤ tariff.wait ∧ tariff.wait ≤ high.second
  walk : ∀ w, net.HasWalk w → low.Enclose high (tariff.walk * w.duration) w.duration
  ride : ∀ r, net.Offers request.date r → low.Enclose high
    (tariff.transitFactor r.trip.reluctance * (Leg.ride r).span) (Leg.ride r).span
  board : ∀ (first : Bool) stop stop',
    low.ride ≤ (if first then tariff.board else tariff.boardAgain) + tariff.stopCost stop +
        tariff.stopCost stop' ∧
      (if first then tariff.board else tariff.boardAgain) + tariff.stopCost stop +
        tariff.stopCost stop' ≤ high.ride
  leg : ∀ leg, leg ∈ request.access ∨ leg ∈ request.egress → low.Enclose high leg.cost leg.duration

/-- The legs with which a search starts and ends are those of its request. -/
theorem Request.mem_of_mem_searchAccess {request : Request} {leg : Connector}
    (h : leg ∈ request.searchAccess) : leg ∈ request.access ∨ leg ∈ request.egress := by
  unfold searchAccess at h
  cases hd : request.direction <;> rw [hd] at h
  · exact .inl h
  · exact .inr h

theorem Request.mem_of_mem_searchEgress {request : Request} {leg : Connector}
    (h : leg ∈ request.searchEgress) : leg ∈ request.access ∨ leg ∈ request.egress := by
  unfold searchEgress at h
  cases hd : request.direction <;> rw [hd] at h
  · exact .inr h
  · exact .inl h

/-- When the ride before a label ended, if there is one. -/
theorem Labels.exists_rideEnd (s : Labels) (label : Label) : ∃ rideEnd, ∀ ride stop,
    s.lastRide label = .ok (some (ride, stop)) → ride.alightTime = rideEnd := by
  cases hlast : s.lastRide label with
  | error fault => exact ⟨0, by rintro _ _ ⟨⟩⟩
  | ok last =>
    cases last with
    | none => exact ⟨0, by rintro _ _ ⟨⟩⟩
    | some last => exact ⟨last.1.alightTime, by rintro _ _ ⟨⟩; rfl⟩

/-- The wait that is paid for before a regular boarding lies between the label before and the
boarding. -/
theorem LabelScene.Adds.wait_le {c : LabelScene} {s : Labels} {before label : Label} {r : Ride}
    (h : c.Adds s before r label) (hslacks : c.slacks.Nonneg) (hrules : c.rules = none)
    (rideEnd : Option Time) :
    ((c.boardingOf r - c.waitSince before (c.boardingOf r) r.constraint rideEnd).natAbs : Int) ≤
      c.direction.gap before.time (c.boardingOf r) := by
  obtain ⟨hregular, hinTime⟩ := h.unruled hrules
  have hbefore := hslacks.beforeBoarding c.direction
  have htransfer := hslacks.transfer
  rw [earliest, Direction.shift_noLater_iff] at hinTime
  rw [hregular, waitSince]
  by_cases hround : before.round = 0
  · rw [if_pos hround] at hinTime ⊢
    have hsince : c.direction.NoLater (c.direction.shift (c.boardingOf r)
        (-c.slacks.beforeBoarding c.direction)) (c.boardingOf r) := by
      rw [Direction.shift_noLater_iff, Direction.gap_self]
      linarith
    rw [hsince.natAbs_sub, Direction.gap_shift_left, Direction.gap_self]
    linarith
  · rw [if_neg hround] at hinTime ⊢
    have hsince : c.direction.NoLater before.time (c.boardingOf r) := by
      rw [Direction.noLater_iff]
      linarith
    exact hsince.natAbs_sub.le

namespace Network.PricedBetween

variable {net : Network} {request : Request} {tariff : Tariff} {low high : Rate}
  {slack : Span} {r : Ride}

/-- Where nothing takes less than no time, it is enough that all factors are between the rates. -/
theorem of_factors (hnet : net.Sound) (hforward : net.TakesTime) (hsecond : 0 ≤ low.second)
    (hride : 0 ≤ high.ride) (hwait : low.second ≤ tariff.wait ∧ tariff.wait ≤ high.second)
    (hwalk : low.second ≤ tariff.walk ∧ tariff.walk ≤ high.second)
    (htransit : ∀ reluctance, low.second ≤ tariff.transitFactor reluctance ∧
      tariff.transitFactor reluctance ≤ high.second)
    (hboard : ∀ (first : Bool) stop stop',
      low.ride ≤ (if first then tariff.board else tariff.boardAgain) + tariff.stopCost stop +
          tariff.stopCost stop' ∧
        (if first then tariff.board else tariff.boardAgain) + tariff.stopCost stop +
          tariff.stopCost stop' ≤ high.ride)
    (hleg : ∀ leg, leg ∈ request.access ∨ leg ∈ request.egress →
      low.Enclose high leg.cost leg.duration) :
    net.PricedBetween request tariff low high where
  second_nonneg := hsecond
  ride_nonneg := hride
  wait := hwait
  walk w hw := Rate.enclose_of_factor hwalk (hforward.walks w hw)
  ride _ hr := Rate.enclose_of_factor (htransit _) (hr.span_nonneg hnet hforward)
  board := hboard
  leg := hleg

theorem high_nonneg (h : net.PricedBetween request tariff low high) : 0 ≤ high.second :=
  h.second_nonneg.trans (h.wait.1.trans h.wait.2)

/-! ### Rides -/

/-- What a ride costs at least, whenever it is boarded. -/
theorem price_le_ride (h : net.PricedBetween request tariff low high)
    (hr : net.Offers request.date r) (hslack : 0 ≤ slack) (first : Bool) (wait : Span)
    (stop stop' : StopId) :
    low.price (wait + (Leg.ride r).span + slack) 1 ≤
      tariff.boardingPrice first wait stop r.trip .regular +
        tariff.ridingPrice slack (Leg.ride r).span r.trip stop' := by
  have hwaits : low.second * wait ≤ tariff.wait * (wait.natAbs : Int) := by
    rw [Int.natCast_natAbs]
    exact (mul_le_mul_of_nonneg_left (le_abs_self wait) h.second_nonneg).trans
      (mul_le_mul_of_nonneg_right h.wait.1 (abs_nonneg wait))
  have hrests := mul_le_mul_of_nonneg_right h.wait.1 hslack
  have hrides := (h.ride r hr).1
  have hboards := (h.board first stop stop').1
  simp only [Rate.price, Tariff.boardingPrice, Tariff.ridingPrice, Nat.cast_one]
  linarith

/-- What a ride costs at most. -/
theorem ride_le_price (h : net.PricedBetween request tariff low high)
    (hr : net.Offers request.date r) (hslack : 0 ≤ slack) (first : Bool) (wait : Span)
    (stop stop' : StopId) :
    tariff.boardingPrice first wait stop r.trip .regular +
        tariff.ridingPrice slack (Leg.ride r).span r.trip stop' ≤
      high.price (wait.natAbs + (Leg.ride r).span + slack) 1 := by
  have hwaits := mul_le_mul_of_nonneg_right h.wait.2 (Int.natCast_nonneg wait.natAbs)
  have hrests := mul_le_mul_of_nonneg_right h.wait.2 hslack
  have hrides := (h.ride r hr).2
  have hboards := (h.board first stop stop').2
  simp only [Rate.price, Tariff.boardingPrice, Tariff.ridingPrice, Nat.cast_one]
  linarith

/-! ### Journeys -/

section

open Itinerary

variable {legs : List Leg} {access egress : Connector} {it : Itinerary} {departure : Time}

/-- What a part of a journey adds to what has been spent, if a ride is waited for since the end of
the part before it. -/
theorem price_le_add (h : net.PricedBetween request tariff low high)
    (hslacks : request.slacks.Nonneg) (state : CostState) (leg : Leg)
    (hride : ∀ r, leg = .ride r → net.Offers request.date r ∧ r.constraint = .regular ∧
      state.since request.slacks r = state.arrival)
    (hwalk : ∀ w, leg = .walk w → net.HasWalk ⟨w.source, w.target, w.duration⟩) :
    state.cost + low.price ((state.add tariff request.slacks leg).arrival - state.arrival)
        (ridesIn [leg]) ≤ (state.add tariff request.slacks leg).cost := by
  cases leg with
  | ride r =>
    obtain ⟨hoffers, hregular, hsince⟩ := hride r rfl
    have hprice := h.price_le_ride hoffers hslacks.alight state.first (r.departs - state.arrival)
      r.boardStop r.alightStop
    have hspan : (state.add tariff request.slacks (.ride r)).arrival - state.arrival =
        r.departs - state.arrival + (r.arrives - r.departs) + request.slacks.alight := by
      show r.arrives + request.slacks.alight - state.arrival = _
      ring
    have hcost : (state.add tariff request.slacks (.ride r)).cost = state.cost +
        tariff.boardingPrice state.first (r.departs - state.arrival) r.boardStop r.trip .regular +
        tariff.ridingPrice request.slacks.alight (r.arrives - r.departs) r.trip r.alightStop := by
      rw [← hsince, ← hregular]
      rfl
    rw [hspan, hcost, Int.add_assoc state.cost]
    exact Int.add_le_add_left hprice _
  | walk w =>
    have hprice := (h.walk _ (hwalk w rfl)).1
    have hspan : (state.add tariff request.slacks (.walk w)).arrival - state.arrival =
        w.duration := add_sub_cancel_left _ _
    rw [hspan]
    simp only [Rate.price, CostState.add, ridesIn_walk, ridesIn_nil, Nat.cast_zero, mul_zero,
      add_zero]
    exact Int.add_le_add_left hprice _

/-- What the parts of a journey add to what has been spent, either after a ride or from the ride on
with which the journey starts. -/
theorem price_le_addAll (h : net.PricedBetween request tariff low high)
    (hslacks : request.slacks.Nonneg) (state : CostState) (legs : List Leg)
    (hrides : ∀ r, .ride r ∈ legs → net.Offers request.date r ∧ r.constraint = .regular)
    (hwalks : ∀ w, .walk w ∈ legs → net.HasWalk ⟨w.source, w.target, w.duration⟩)
    (hstarts : state.first = true →
      ∃ r rest, legs = .ride r :: rest ∧ r.departs - request.slacks.board = state.arrival) :
    state.cost + low.price ((state.addAll tariff request.slacks legs).arrival - state.arrival)
        (ridesIn legs) ≤ (state.addAll tariff request.slacks legs).cost := by
  induction legs generalizing state with
  | nil => simp [Rate.price]
  | cons leg rest ih =>
    have hnext : (state.add tariff request.slacks leg).first = false := by
      cases leg with
      | ride r => rfl
      | walk w =>
        refine Bool.eq_false_iff.mpr fun hfirst => ?_
        obtain ⟨r, _, hlegs, -⟩ := hstarts hfirst
        cases hlegs
    have hsince : ∀ r, leg = .ride r → r.constraint = .regular →
        state.since request.slacks r = state.arrival := by
      rintro r rfl hregular
      cases hfirst : state.first with
      | true =>
        obtain ⟨_, _, hlegs, harrival⟩ := hstarts hfirst
        cases hlegs
        simpa [CostState.since, hfirst] using harrival
      | false =>
        simp [CostState.since, hfirst, hregular, Constraint.isFacilitated,
          Constraint.isStaySeated, Constraint.isGuaranteed]
    have hadd := h.price_le_add hslacks state leg
      (fun r hr => by
        obtain ⟨hoffers, hregular⟩ := hrides r (hr ▸ List.mem_cons_self)
        exact ⟨hoffers, hregular, hsince r hr hregular⟩)
      (fun w hw => hwalks w (hw ▸ List.mem_cons_self))
    have hrest := ih (state.add tariff request.slacks leg)
      (fun r hr => hrides r (List.mem_cons_of_mem _ hr))
      (fun w hw => hwalks w (List.mem_cons_of_mem _ hw))
      (fun hfirst => absurd (hnext.symm.trans hfirst) Bool.false_ne_true)
    rw [CostState.addAll_cons, ← List.singleton_append, ridesIn_append,
      ← Rate.price_sub_add_price_sub, ← add_assoc]
    exact (Int.add_le_add_right hadd _).trans hrest

/-- A journey costs no less than the lower rate says of its time and rides. -/
theorem price_le_cost (h : net.PricedBetween request tariff low high) (hnet : net.Sound)
    (hslacks : request.slacks.Nonneg) (haccess : access.onBoard = false)
    (hegress : egress.onBoard = false) (hjourney : net.IsJourney request access legs egress)
    (hnew : Itinerary.new access legs egress request.slacks tariff departure = .ok it) :
    low.price (it.endTime - it.startTime) (ridesIn legs) ≤ it.cost := by
  have hreal := hjourney.realizes
  obtain ⟨r, rest, rfl, -⟩ := hreal.exists_first haccess hegress
  have htimed : AllTimed (.ride r :: rest) := fun r hr => (hreal.offers r hr).timed hnet
  obtain ⟨-, -, -, hstart, hend, hcost⟩ := (yields_new_ride haccess htimed).of_ok hnew
  have hparts := h.price_le_addAll hslacks (.before request.slacks access.cost r) (.ride r :: rest)
    (fun r hr => ⟨hreal.offers r hr, hjourney.regular r hr⟩)
    (fun w hw => (hreal.declared w hw).2) (fun _ => ⟨r, rest, rfl, rfl⟩)
  have haccess := (h.leg access (.inl hreal.access_mem)).1
  have hegress := (h.leg egress (.inr hreal.egress_mem)).1
  rw [CostState.addAll_arrival] at hparts
  rw [hstart, hend, hcost]
  simp only [Rate.price, CostState.before] at hparts ⊢
  linarith

end

/-! ### Searches -/

section

variable {c : LabelScene} {course : Course} {s : Labels} {maxRounds : Nat} {id : LabelId}
  {label : Label} {start : Time} {times : List Time}

/-- A ride of a search without rules adds no more to the label before it than the higher rate says
of the time since that label. -/
theorem cost_le_of_adds {before : Label} (h : net.PricedBetween request c.tariff low high)
    (hslacks : c.slacks.Nonneg) (hrules : c.rules = none) (hr : net.Offers request.date r)
    (hadds : c.Adds s before r label) :
    label.cost ≤ before.cost + high.price (c.direction.gap before.time label.time) 1 := by
  obtain ⟨rideEnd, hrideEnd⟩ := s.exists_rideEnd before
  have hspan : c.direction.gap before.time label.time =
      c.direction.gap before.time (c.boardingOf r) + (Leg.ride r).span +
        c.slacks.afterAlighting c.direction := by
    rw [hadds.time_eq, Direction.gap_shift_right, ← LabelScene.gap_eq_span,
      Direction.gap_add_gap]
  have hprice := h.ride_le_price hr (hslacks.afterAlighting c.direction) (before.round == 0)
    (c.boardingOf r - c.waitSince before (c.boardingOf r) r.constraint (some rideEnd))
    (c.boardingStop r) (c.leavingStop r)
  have hmore := Rate.price_mono h.high_nonneg h.ride_nonneg
    (Int.add_le_add_right (Int.add_le_add_right (hadds.wait_le hslacks hrules (some rideEnd))
      (Leg.ride r).span) (c.slacks.afterAlighting c.direction)) (le_refl 1)
  have hregular := (hadds.unruled hrules).1
  rw [hadds.cost_eq rideEnd hrideEnd, hspan, hregular, add_assoc]
  rw [hregular] at hprice hmore
  exact Int.add_le_add_left (hprice.trans hmore) _

/-- No label of a search without rules costs more than the higher rate says of its rides and of the
time since a start time that none is before. -/
theorem label_cost_le (h : course.network.PricedBetween request c.tariff low high)
    (hs : s.Sound c.direction c.stopCount maxRounds) (hj : c.Justified course s)
    (hnet : course.network.Sound) (hfor : c.For course request) (hrules : c.rules = none)
    (hslacks : c.slacks.Nonneg) (hdeparts : c.Departs s times)
    (hlater : ∀ time ∈ times, c.direction.NoLater start time)
    (haccess : ∀ leg ∈ course.access, leg.onBoard = false)
    (hlabel : s.arena[id]? = some label) :
    label.cost ≤ high.price (c.direction.gap start label.time) label.round := by
  obtain ⟨trail, htrail⟩ := LabelScene.exists_trail hs hlabel
  have htraces := LabelScene.traces_of_trail htrail
  clear htrail
  generalize trail.legs = legs at htraces
  induction htraces generalizing label with
  | access hlabel' horigin htime =>
    obtain rfl := Option.some.inj (hlabel.symm.trans hlabel')
    have hstarts := (hj.label hlabel).starts horigin haccess
    obtain ⟨time, htime', hshift⟩ := hdeparts hlabel horigin
    have hmem := (LabelScene.Traces.access hlabel' horigin htime).access_mem hj
    rw [hfor.access_eq] at hmem
    have hleg := (h.leg _ (Request.mem_of_mem_searchAccess hmem)).2
    have hwaits := mul_nonneg h.high_nonneg (hlater time htime')
    rw [hstarts.round_eq, hstarts.cost_eq, hshift, Direction.gap_shift_right]
    simp only [Rate.price, Nat.cast_zero, mul_zero, add_zero]
    linarith
  | ride hlabel' horigin _ ih =>
    obtain rfl := Option.some.inj (hlabel.symm.trans hlabel')
    obtain ⟨before, hbefore, hadds⟩ := (hj.label hlabel).adds horigin hnet hfor
    have hoffers := ((hj.label hlabel).offers horigin hnet hfor.services_eq).1
    have hride := h.cost_le_of_adds hslacks hrules hoffers hadds
    rw [hadds.round_eq, ← Direction.gap_add_gap (b := before.time), Rate.price_add]
    exact hride.trans (Int.add_le_add_right (ih hbefore) _)
  | @walk _ _ _ source duration _ hlabel' horigin _ ih =>
    obtain rfl := Option.some.inj (hlabel.symm.trans hlabel')
    obtain ⟨before, hbefore, -, hstrolls⟩ := (hj.label hlabel).walks horigin
    obtain ⟨-, _, -, -, -, -, hwalk⟩ := (hj.label hlabel).walk_inv horigin
    have hprice : c.tariff.walk * duration ≤ high.second * duration := by
      cases hd : c.direction <;> rw [hd] at hwalk <;> exact (h.walk _ hwalk).2
    have hbefore := ih hbefore
    rw [hstrolls.round_eq, hstrolls.time_eq, hstrolls.cost_eq, Direction.gap_shift_right,
      LabelScene.duration_realWalk]
    simp only [Rate.price] at hbefore ⊢
    linarith

/-- No finish of a search without rules costs more than the higher rate says of the time since a
start time that none is before, with one ride more than it has transfers. -/
theorem finish_cost_le (h : course.network.PricedBetween request c.tariff low high)
    (hs : s.Sound c.direction c.stopCount maxRounds) (hj : c.Justified course s)
    (hnet : course.network.Sound) (hfor : c.For course request) (hrules : c.rules = none)
    (hslacks : c.slacks.Nonneg) (hdeparts : c.Departs s times)
    (hlater : ∀ time ∈ times, c.direction.NoLater start time)
    (haccess : ∀ leg ∈ course.access, leg.onBoard = false)
    (hegress : ∀ leg ∈ c.egress, leg.onBoard = false) (hbyte : maxRounds ≤ 255)
    {e : Finish × JourneyCriteria} (he : e ∈ s.finishes.entries) :
    e.2.cost ≤ high.price (c.direction.gap start e.2.time) (e.2.transfers + 1) := by
  obtain ⟨label, hlabel, hleg, -, -, hcriteria⟩ := hj.finish he
  have hcost := h.label_cost_le hs hj hnet hfor hrules hslacks hdeparts hlater haccess hlabel
  have hround := (hs.label_round_le hlabel).trans hbyte
  have hwalks := hegress _ hleg
  rw [hfor.egress_eq] at hleg
  have hleg := (h.leg _ (Request.mem_of_mem_searchEgress hleg)).2
  have hrides : label.round ≤ e.2.transfers + 1 := by
    rw [hcriteria, LabelScene.finishCriteria, hwalks, Bool.toNat_false]
    dsimp only
    omega
  have hmore := Rate.price_mono h.high_nonneg h.ride_nonneg
    (le_refl (c.direction.gap start e.2.time)) hrides
  refine le_trans ?_ hmore
  rw [hcriteria]
  simp only [LabelScene.finishCriteria, Direction.gap_shift_right]
  simp only [Rate.price] at hcost ⊢
  linarith

end

end Network.PricedBetween

end JourneyPlanner
