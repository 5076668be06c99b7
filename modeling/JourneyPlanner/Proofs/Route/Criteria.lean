import JourneyPlanner.Proofs.Itinerary.Pricing
import JourneyPlanner.Proofs.Refinement.Feasibility
import JourneyPlanner.Proofs.Route.Answers
import JourneyPlanner.Proofs.Route.Changes

/-!
# The criteria of itineraries

The itinerary of a finish, between walks, has the time at the end of the search and the transfers
that the search has compared. A search that follows the clock adds its cost up in the order of the
traveller and finds the same, whatever the rules are. One that goes back in time prices each change
with the ride before it, and its itinerary costs what the changes drift by more: nothing, where no
rules apply.

* `LabelScene.Adds`: what a ride adds to the label before it.
* `LabelScene.Tallies`: a label of a search that follows the clock, and the parts of its trail.
* `LabelScene.Returns`: a label of a search that goes back in time, and the parts of its trail.
* `LabelScene.yields_itinerary_forward`, `LabelScene.yields_itinerary_reverse`: the itinerary of a
  finish and its criteria.
-/

namespace JourneyPlanner

namespace LabelScene

variable {c : LabelScene} {course : Course} {s : Labels} {maxRounds : Nat} {id previous : LabelId}
  {label before : Label} {access egress : Connector} {time : Time} {legs between rest : List Leg}
  {ride : SearchRide} {r first : Ride} {request : Request}

/-! ### Rides of a search -/

/-- When a search boards a ride. -/
def boardingOf (c : LabelScene) (r : Ride) : Time :=
  match c.direction with
  | .forward => r.departs
  | .reverse => r.arrives

def leavingOf (c : LabelScene) (r : Ride) : Time :=
  match c.direction with
  | .forward => r.arrives
  | .reverse => r.departs

def boardingStop (c : LabelScene) (r : Ride) : StopId :=
  match c.direction with
  | .forward => r.boardStop
  | .reverse => r.alightStop

def leavingStop (c : LabelScene) (r : Ride) : StopId :=
  match c.direction with
  | .forward => r.alightStop
  | .reverse => r.boardStop

theorem boardingOf_realRide {stop : StopId} :
    c.boardingOf (c.realRide ride stop) = c.direction.boardingAt ride.trip ride.boardPosition := by
  unfold boardingOf realRide
  cases c.direction <;> rfl

theorem leavingOf_realRide {stop : StopId} :
    c.leavingOf (c.realRide ride stop) = c.direction.alightingAt ride.trip ride.alightPosition := by
  unfold leavingOf realRide
  cases c.direction <;> rfl

theorem boardingStop_realRide {stop : StopId} :
    c.boardingStop (c.realRide ride stop) = ride.boardStop := by
  unfold boardingStop realRide
  cases c.direction <;> rfl

theorem leavingStop_realRide {stop : StopId} : c.leavingStop (c.realRide ride stop) = stop := by
  unfold leavingStop realRide
  cases c.direction <;> rfl

theorem trip_realRide {stop : StopId} : (c.realRide ride stop).trip = ride.trip := by
  unfold realRide
  cases c.direction <;> rfl

theorem constraint_realRide {stop : StopId} :
    (c.realRide ride stop).constraint = ride.constraint := by
  unfold realRide
  cases c.direction <;> rfl

/-- Both directions take a ride to last as long. -/
theorem gap_eq_span : c.direction.gap (c.boardingOf r) (c.leavingOf r) = (Leg.ride r).span := by
  unfold boardingOf leavingOf
  cases c.direction <;> rfl

theorem duration_realWalk {source target : StopId} {duration : Span} :
    (c.realWalk source target duration).duration = duration := by
  unfold realWalk
  cases c.direction <;> rfl

/-- What a ride adds to the label before it. Before a change that a rule facilitates the traveller
waits since the end of the ride before, and without any ride before there is no such rule. -/
structure Adds (c : LabelScene) (s : Labels) (before : Label) (r : Ride)
    (label : Label) : Prop where
  round_eq : label.round = before.round + 1
  timed : r.Timed
  time_eq : label.time = c.direction.shift (c.leavingOf r) (c.slacks.afterAlighting c.direction)
  ends : ∀ ride stop, s.lastRide label = .ok (some (ride, stop)) → ride.alightTime = c.leavingOf r
  cost_eq : ∀ rideEnd,
    (∀ ride stop, s.lastRide before = .ok (some (ride, stop)) → ride.alightTime = rideEnd) →
    label.cost = before.cost +
      c.tariff.boardingPrice (before.round == 0) (c.boardingOf r -
        c.waitSince before (c.boardingOf r) r.constraint (some rideEnd)) (c.boardingStop r) r.trip
        r.constraint +
      c.tariff.ridingPrice (c.slacks.afterAlighting c.direction) (Leg.ride r).span r.trip
        (c.leavingStop r)
  regular : s.lastRide before = .ok none → r.constraint = .regular
  unruled : c.rules = none →
    r.constraint = .regular ∧ c.direction.NoLater (c.earliest before) (c.boardingOf r)

/-- A label by a ride adds the ride to an earlier label. -/
theorem Derived.adds (h : c.Derived course s label) (horigin : label.origin = .ride ride previous)
    (hnet : course.network.Sound) (hfor : c.For course request) :
    ∃ before, s.arena[previous]? = some before ∧
      c.Adds s before (c.realRide ride label.stop) label := by
  obtain ⟨-, htimed⟩ := h.offers horigin hnet hfor.services_eq
  obtain ⟨i, p, t, before, e, k, hp, ht, hbefore, hboardStop, hboards, hstop, halights, hprecedes,
    hchoose, hchosen, hride, hlabel⟩ := h.ride_inv horigin hnet
  have hposition := (Array.getElem?_eq_some_iff.mp hboardStop).1
  obtain ⟨hboardTime, halightTime⟩ := h.ride_times horigin hnet
  have hconstraint : e.constraint = ride.constraint := by rw [hride]; rfl
  have htime : e.time = c.boardingOf (c.realRide ride label.stop) := by
    rw [boardingOf_realRide, ← hboardTime, hride]
    rfl
  have hlast : s.lastRide label = .ok (some (ride, label.stop)) := by
    rw [Labels.lastRide, horigin]
    rfl
  refine ⟨before, hbefore, ?_⟩
  -- whichever way the trip was chosen, its cost is that of the boarding
  have hboarded : ∀ rideEnd,
      (∀ ride stop, s.lastRide before = .ok (some (ride, stop)) → ride.alightTime = rideEnd) →
      e.cost = before.cost + c.tariff.boardingPrice (before.round == 0)
        (e.time - c.waitSince before e.time e.constraint (some rideEnd)) before.stop e.trip
        e.constraint := by
    intro rideEnd hrideEnd
    rcases choose_eq_some hchoose with
      ⟨found, rideEnd', hruled, -, rfl, -⟩ | ⟨-, rank, trip, -, rfl, -⟩
    · obtain ⟨_, ride', stop, -, hlast, -, rfl⟩ := ruled_eq_some hruled
      rw [← hrideEnd ride' stop hlast]
      rfl
    · rfl
  constructor
  case round_eq => exact congrArg Label.round hlabel
  case timed => exact htimed
  case time_eq =>
    rw [leavingOf_realRide, ← halightTime, hride]
    exact congrArg Label.time hlabel
  case ends =>
    intro ride' stop hlast'
    obtain ⟨rfl, -⟩ := Prod.mk.inj (Option.some.inj (Except.ok.inj (hlast.symm.trans hlast')))
    rw [leavingOf_realRide, halightTime]
  case cost_eq =>
    intro rideEnd hrideEnd
    have hcost : label.cost = e.cost + c.tariff.ridingPrice (c.slacks.afterAlighting c.direction)
        (c.direction.gap e.time (c.direction.alightingAt e.trip ride.alightPosition)) e.trip
        label.stop := congrArg Label.cost hlabel
    have htrip : e.trip = ride.trip := by rw [hride]; rfl
    have hstopEq : before.stop = ride.boardStop := by
      rw [hride]
      exact hchosen.stop.symm
    rw [hcost, hboarded rideEnd hrideEnd, boardingStop_realRide, leavingStop_realRide,
      trip_realRide, constraint_realRide, ← gap_eq_span (c := c), leavingOf_realRide, htime,
      hconstraint, htrip, hstopEq]
  case regular =>
    intro hnone
    rw [constraint_realRide, ← hconstraint]
    rcases choose_eq_some hchoose with ⟨found, rideEnd, hruled, -⟩ | ⟨-, rank, trip, -, rfl, -⟩
    · obtain ⟨_, ride', stop, -, hlast, -⟩ := ruled_eq_some hruled
      rw [hnone] at hlast
      cases hlast
    · rfl
  case unruled =>
    intro hrules
    rw [constraint_realRide, ← hconstraint, ← htime]
    rw [ruleSearch_eq_none hrules] at hchoose
    rcases choose_eq_some hchoose with ⟨found, rideEnd, hruled, -⟩ | ⟨-, rank, trip, hbest, rfl, -⟩
    · cases hruled
    · exact ⟨rfl, noLater_of_bestTrip (hnet.timetable_sound hp ht) hposition hbest⟩

/-- The ride before a walk is that before the label where the walk starts. -/
theorem lastRide_of_walk {source stop : StopId} {duration : Span}
    (horigin : label.origin = .walk source duration previous)
    (hbefore : s.arena[previous]? = some before)
    (h : s.lastRide label = .ok (some (ride, stop))) :
    ∃ stop', s.lastRide before = .ok (some (ride, stop')) := by
  unfold Labels.lastRide at h ⊢
  simp only [horigin, Labels.label, fetch_of_getElem? hbefore, bind, Except.bind] at h
  cases hride : before.origin with
  | access | walk =>
    simp only [hride] at h
    cases h
  | ride ride' previous' =>
    simp only [hride] at h
    cases h
    exact ⟨_, rfl⟩

/-- What a walk adds to the label before it. -/
structure Strolls (c : LabelScene) (before : Label) (stroll : Stroll) (label : Label) : Prop where
  round_eq : label.round = before.round
  time_eq : label.time = c.direction.shift before.time stroll.duration
  cost_eq : label.cost = before.cost + c.tariff.walk * stroll.duration

/-- A label by a walk adds the walk to a label on board. -/
theorem Derived.walks {source : StopId} {duration : Span} (h : c.Derived course s label)
    (horigin : label.origin = .walk source duration previous) :
    ∃ before, s.arena[previous]? = some before ∧ before.onBoard = true ∧
      c.Strolls before (c.realWalk source label.stop duration) label := by
  cases h with
  | access | ride => cases horigin
  | walk hbefore honBoard =>
    obtain ⟨-, rfl, rfl⟩ := Origin.walk.inj horigin
    refine ⟨_, hbefore, honBoard, rfl, ?_, ?_⟩
    · rw [duration_realWalk]
      rfl
    · rw [duration_realWalk]
      rfl

/-- A label with which a search starts. -/
structure Starts (c : LabelScene) (s : Labels) (access : Connector) (label : Label) : Prop where
  round_eq : label.round = 0
  cost_eq : label.cost = access.cost
  walks : label.onBoard = false
  first : s.lastRide label = .ok none

/-- Where all legs at the start are walks, a label without an earlier one starts by one of them. -/
theorem Derived.starts (h : c.Derived course s label) (horigin : label.origin = .access access)
    (hwalks : ∀ leg ∈ course.access, leg.onBoard = false) : c.Starts s access label := by
  cases h with
  | ride | walk => cases horigin
  | @access leg start iteration hleg =>
    obtain rfl := Origin.access.inj horigin
    have hwalks := hwalks leg hleg
    refine ⟨?_, rfl, hwalks, rfl⟩
    rw [seeded, hwalks]
    rfl

/-- A trail that ends on board, from a walk, ends with a ride. -/
theorem Traces.exists_ride (h : c.Traces s access time id legs) (haccess : access.onBoard = false)
    (hlabel : s.arena[id]? = some label) (honBoard : label.onBoard = true) :
    ∃ r rest, legs = .ride r :: rest := by
  rw [h.onBoard_eq hlabel] at honBoard
  cases legs with
  | nil =>
    rw [haccess] at honBoard
    cases honBoard
  | cons leg rest =>
    cases leg with
    | ride r => exact ⟨r, rest, rfl⟩
    | walk stroll => cases honBoard

/-- Every label has a trail. -/
theorem exists_trail (hs : s.Sound c.direction c.stopCount maxRounds)
    (hlabel : s.arena[id]? = some label) : ∃ trail, c.trail? s id = .ok (some trail) := by
  induction id using Nat.strong_induction_on generalizing label with
  | h id ih =>
    -- the label before is one of the arena too
    have hbefore : ∀ {previous : LabelId}, label.origin.previous? = some previous →
        previous < id ∧ ∃ trail, c.trail? s previous = .ok (some trail) := by
      intro previous hprevious
      have hlt := hs.previous_lt hlabel hprevious
      have hsize := hlt.trans (Array.getElem?_eq_some_iff.mp hlabel).1
      exact ⟨hlt, ih previous hlt (Array.getElem?_eq_getElem hsize)⟩
    have hfound : s.label id = pure label := label_eq_ok.mpr hlabel
    rw [trail?, hfound, pure_bind]
    cases horigin : label.origin with
    | access leg => exact ⟨_, rfl⟩
    | ride ride previous =>
      obtain ⟨hlt, trail, htrail⟩ := hbefore (by rw [horigin]; rfl)
      dsimp only
      rw [if_pos hlt, htrail]
      exact ⟨_, rfl⟩
    | walk source duration previous =>
      obtain ⟨hlt, trail, htrail⟩ := hbefore (by rw [horigin]; rfl)
      dsimp only
      rw [if_pos hlt, htrail]
      exact ⟨_, rfl⟩

/-! ### Searches that follow the clock -/

/-- A label of a search that follows the clock: the parts of its trail, of which `first` is boarded
first, add up to it. -/
structure Tallies (c : LabelScene) (s : Labels) (access : Connector) (legs : List Leg)
    (first : Ride) (label : Label) : Prop where
  starts : legs.getLast? = some (.ride first)
  timed : Itinerary.AllTimed legs
  round_eq : label.round = Itinerary.ridesIn legs
  adds : ∃ rideEnd, (Itinerary.CostState.before c.slacks access.cost first).addAll c.tariff c.slacks
      legs.reverse = ⟨label.cost, false, label.time, rideEnd⟩ ∧
    ∀ ride stop, s.lastRide label = .ok (some (ride, stop)) → ride.alightTime = rideEnd

namespace Tallies

theorem round_ne_zero (h : c.Tallies s access legs first label) : label.round ≠ 0 := by
  have hmem : first ∈ legs.filterMap Leg.ride? :=
    List.mem_filterMap.mpr ⟨_, List.mem_of_getLast? h.starts, rfl⟩
  rw [h.round_eq]
  exact (List.length_pos_of_mem hmem).ne'

/-- A label after the first ride. -/
theorem one (hd : c.direction = .forward) (hstarts : c.Starts s access before)
    (hadds : c.Adds s before r label) : c.Tallies s access [.ride r] r label where
  starts := rfl
  timed := by
    intro r' hr'
    obtain rfl := Leg.ride.inj (List.mem_singleton.mp hr')
    exact hadds.timed
  round_eq := by
    rw [hadds.round_eq, hstarts.round_eq]
    rfl
  adds := by
    have htime := hadds.time_eq
    have hcost := hadds.cost_eq 0 (by rw [hstarts.first]; rintro _ _ ⟨⟩)
    have hends := hadds.ends
    simp only [leavingOf, hd] at htime hends
    simp only [boardingOf, boardingStop, leavingStop, waitSince, hd, hstarts.round_eq, if_true,
      beq_self_eq_true, hstarts.cost_eq] at hcost
    refine ⟨r.arrives, ?_, hends⟩
    rw [hcost, htime]
    rfl

/-- A label after one more ride. -/
theorem after_ride (h : c.Tallies s access legs first before) (hd : c.direction = .forward)
    (hadds : c.Adds s before r label) : c.Tallies s access (.ride r :: legs) first label where
  starts := by
    have hstarts := h.starts
    cases legs with
    | nil => cases hstarts
    | cons leg rest => exact hstarts
  timed := by
    intro r' hr'
    rcases List.mem_cons.mp hr' with heq | hr'
    · obtain rfl := Leg.ride.inj heq
      exact hadds.timed
    · exact h.timed r' hr'
  round_eq := by rw [hadds.round_eq, h.round_eq, Itinerary.ridesIn_ride]
  adds := by
    obtain ⟨rideEnd, hstate, hrideEnd⟩ := h.adds
    have hround := h.round_ne_zero
    have hlater : (before.round == 0) = false := by simpa using hround
    have htime := hadds.time_eq
    have hcost := hadds.cost_eq rideEnd hrideEnd
    have hends := hadds.ends
    simp only [leavingOf, hd] at htime hends
    simp only [boardingOf, boardingStop, leavingStop, waitSince, hd, if_neg hround, hlater,
      Option.getD_some] at hcost
    refine ⟨r.arrives, ?_, hends⟩
    rw [List.reverse_cons, Itinerary.CostState.addAll_append, hstate, hcost, htime]
    rfl

/-- A label after a walk. -/
theorem after_walk (h : c.Tallies s access legs first before) (hd : c.direction = .forward)
    {stroll : Stroll} (hstroll : c.Strolls before stroll label)
    (hlast : ∀ ride stop, s.lastRide label = .ok (some (ride, stop)) →
      ∃ stop', s.lastRide before = .ok (some (ride, stop'))) :
    c.Tallies s access (.walk stroll :: legs) first label where
  starts := by
    have hstarts := h.starts
    cases legs with
    | nil => cases hstarts
    | cons leg rest => exact hstarts
  timed := by
    intro r' hr'
    rcases List.mem_cons.mp hr' with heq | hr'
    · cases heq
    · exact h.timed r' hr'
  round_eq := by rw [hstroll.round_eq, h.round_eq, Itinerary.ridesIn_walk]
  adds := by
    obtain ⟨rideEnd, hstate, hrideEnd⟩ := h.adds
    refine ⟨rideEnd, ?_, fun ride stop hride => ?_⟩
    · rw [List.reverse_cons, Itinerary.CostState.addAll_append, hstate, hstroll.cost_eq,
        hstroll.time_eq, hd]
      rfl
    · obtain ⟨stop', hride⟩ := hlast ride stop hride
      exact hrideEnd ride stop' hride

end Tallies

/-- A label of a trail either is where the search starts, or what the parts add up to. -/
theorem Traces.tallies (h : c.Traces s access time id legs) (hj : c.Justified course s)
    (hnet : course.network.Sound) (hfor : c.For course request) (hd : c.direction = .forward)
    (hwalks : ∀ leg ∈ course.access, leg.onBoard = false) (hlabel : s.arena[id]? = some label) :
    (c.Starts s access label ∧ legs = []) ∨ ∃ first, c.Tallies s access legs first label := by
  induction h generalizing label with
  | access hlabel' horigin =>
    obtain rfl := Option.some.inj (hlabel.symm.trans hlabel')
    exact .inl ⟨(hj.label hlabel).starts horigin hwalks, rfl⟩
  | ride hlabel' horigin _ ih =>
    obtain rfl := Option.some.inj (hlabel.symm.trans hlabel')
    obtain ⟨before, hbefore, hadds⟩ := (hj.label hlabel).adds horigin hnet hfor
    rcases ih hbefore with ⟨hstarts, rfl⟩ | ⟨first, htallies⟩
    · exact .inr ⟨_, .one hd hstarts hadds⟩
    · exact .inr ⟨first, htallies.after_ride hd hadds⟩
  | walk hlabel' horigin _ ih =>
    obtain rfl := Option.some.inj (hlabel.symm.trans hlabel')
    obtain ⟨before, hbefore, honBoard, hstroll⟩ := (hj.label hlabel).walks horigin
    rcases ih hbefore with ⟨hstarts, -⟩ | ⟨first, htallies⟩
    · rw [hstarts.walks] at honBoard
      cases honBoard
    · exact .inr ⟨first, htallies.after_walk hd hstroll fun _ _ => lastRide_of_walk horigin hbefore⟩

/-! ### Searches that go back in time -/

/-- A label of a search that goes back in time: the parts of its trail, which starts with walks and
the ride `r`, cost what the search has added up and the drift of their changes. -/
structure Returns (c : LabelScene) (s : Labels) (access : Connector) (between : List Leg) (r : Ride)
    (rest : List Leg) (label : Label) : Prop where
  walks : ∀ leg ∈ between, leg.isRide = false
  timed : Itinerary.AllTimed (.ride r :: rest)
  round_eq : label.round = Itinerary.ridesIn rest + 1
  time_eq : label.time = r.departs - c.slacks.board - Itinerary.spans between
  ends : ∀ ride stop, s.lastRide label = .ok (some (ride, stop)) → ride.alightTime = r.departs
  cost_eq : label.cost +
      Itinerary.drift c.tariff c.slacks (delayConstraints .regular (.ride r :: rest)) =
    access.cost + ((Itinerary.CostState.before c.slacks 0 r).addAll c.tariff c.slacks
      (delayConstraints .regular (.ride r :: rest))).cost + c.tariff.walk * Itinerary.spans between
  undrifted : c.rules = none →
    Itinerary.drift c.tariff c.slacks (delayConstraints .regular (.ride r :: rest)) = 0

/-- Walks are passed by when constraints are given to the next ride. -/
theorem delayConstraints_walks {found : Constraint} (hwalks : ∀ leg ∈ between, leg.isRide = false) :
    delayConstraints found (between ++ legs) = between ++ delayConstraints found legs := by
  induction between with
  | nil => rfl
  | cons leg rest ih =>
    cases leg with
    | ride r => exact absurd (hwalks (.ride r) List.mem_cons_self) (by simp [Leg.isRide])
    | walk stroll =>
      exact congrArg (.walk stroll :: ·) (ih fun leg hleg =>
        hwalks leg (List.mem_cons_of_mem _ hleg))

/-- The parts after one more ride, with the constraints where they belong. -/
theorem delayed_ride {r' : Ride} (hwalks : ∀ leg ∈ between, leg.isRide = false) :
    delayConstraints .regular (.ride r :: (between ++ .ride r' :: rest)) =
      .ride { r with constraint := .regular } :: (between ++
        .ride { r' with constraint := r.constraint } :: delayConstraints r'.constraint rest) := by
  rw [delayConstraints, delayConstraints_walks hwalks]
  rfl

/-- A change that leaves time for all slacks does not drift. -/
theorem drift_eq_zero {tariff : Tariff} {slacks : Slacks} {walk : Span} {second : Ride}
    (hslacks : slacks.Nonneg) (hregular : second.constraint = .regular)
    (htimely : first.arrives + slacks.alight + walk + slacks.board ≤ second.departs) :
    tariff.drift slacks first walk second = 0 := by
  have hboard := hslacks.board
  have halight := hslacks.alight
  have hlate : ((second.departs - first.arrives - slacks.alight - walk).natAbs : Int) =
      second.departs - first.arrives - slacks.alight - walk := Int.natAbs_of_nonneg (by linarith)
  have hsoon : ((second.departs - first.arrives - slacks.board - walk).natAbs : Int) =
      second.departs - first.arrives - slacks.board - walk := Int.natAbs_of_nonneg (by linarith)
  simp only [Tariff.drift, hregular, hlate, hsoon]
  ring

namespace Returns

/-- A label after the first ride. -/
theorem one (hd : c.direction = .reverse) (hslacks : c.slacks.Nonneg)
    (hstarts : c.Starts s access before) (hadds : c.Adds s before r label) :
    c.Returns s access [] r [] label where
  walks := by simp
  timed := by
    intro r' hr'
    obtain rfl := Leg.ride.inj (List.mem_singleton.mp hr')
    exact hadds.timed
  round_eq := by
    rw [hadds.round_eq, hstarts.round_eq]
    rfl
  time_eq := by
    have htime := hadds.time_eq
    simp only [leavingOf, hd] at htime
    rw [htime, Itinerary.spans_nil, Int.sub_zero]
    rfl
  ends := by
    have hends := hadds.ends
    simpa only [leavingOf, hd] using hends
  cost_eq := by
    have hcost := hadds.cost_eq 0 (by rw [hstarts.first]; rintro _ _ ⟨⟩)
    have hboard : (c.slacks.board.natAbs : Int) = c.slacks.board :=
      Int.natAbs_of_nonneg hslacks.board
    have halight : ((r.arrives - (r.arrives - -c.slacks.alight)).natAbs : Int) =
      c.slacks.alight := by
      rw [sub_sub_cancel, Int.natAbs_neg]
      exact Int.natAbs_of_nonneg hslacks.alight
    simp only [boardingOf, boardingStop, leavingStop, waitSince, hd, hstarts.round_eq, if_true,
      beq_self_eq_true, hstarts.cost_eq, hadds.regular hstarts.first, Slacks.beforeBoarding,
      Slacks.afterAlighting, Direction.shift, Tariff.boardingPrice, Tariff.ridingPrice, Leg.span,
      halight] at hcost
    rw [hcost, delayConstraints, delayConstraints, Itinerary.drift, Itinerary.driftAfter,
      Itinerary.CostState.addAll_cons, Itinerary.CostState.addAll_nil,
      Itinerary.CostState.add_before_cost, hboard, Itinerary.spans_nil, Tariff.ridingPrice]
    ring
  undrifted _ := rfl

/-- A label after one more ride. -/
theorem after_ride {r' : Ride} (h : c.Returns s access between r' rest before)
    (hd : c.direction = .reverse) (hslacks : c.slacks.Nonneg) (hadds : c.Adds s before r label) :
    c.Returns s access [] r (between ++ .ride r' :: rest) label where
  walks := by simp
  timed := by
    intro r'' hr''
    rcases List.mem_cons.mp hr'' with heq | hr''
    · obtain rfl := Leg.ride.inj heq
      exact hadds.timed
    · rcases List.mem_append.mp hr'' with hr'' | hr''
      · exact absurd (h.walks _ hr'') (by simp [Leg.isRide])
      · exact h.timed r'' hr''
  round_eq := by
    rw [hadds.round_eq, h.round_eq, Itinerary.ridesIn_append, Itinerary.ridesIn_walks h.walks,
      Itinerary.ridesIn_ride, Nat.zero_add]
  time_eq := by
    have htime := hadds.time_eq
    simp only [leavingOf, hd] at htime
    rw [htime, Itinerary.spans_nil, Int.sub_zero]
    rfl
  ends := by
    have hends := hadds.ends
    simpa only [leavingOf, hd] using hends
  cost_eq := by
    have hbefore := h.cost_eq
    have hround : before.round ≠ 0 := by
      rw [h.round_eq]
      exact Nat.succ_ne_zero _
    have hlater : (before.round == 0) = false := by simpa using hround
    have hcost := hadds.cost_eq r'.departs h.ends
    simp only [boardingOf, boardingStop, leavingStop, waitSince, hd, if_neg hround, hlater,
      Option.getD_some, h.time_eq, Slacks.afterAlighting] at hcost
    rw [hcost, delayed_ride h.walks, Itinerary.drift_change h.walks, Tariff.drift_eq,
      Itinerary.CostState.addAll_change h.walks, Itinerary.CostState.add_before_cost,
      Itinerary.driftAfter_constraint, Itinerary.spans_nil]
    rw [delayConstraints, Itinerary.drift, Itinerary.driftAfter_constraint,
      Itinerary.CostState.addAll_ride_cost, Itinerary.CostState.add_before_cost] at hbefore
    simp only [Tariff.ridingPrice, Leg.span, Ride.departs_constraint, Ride.arrives_constraint,
      Itinerary.CostState.afterRide_constraint] at hbefore ⊢
    linarith
  undrifted := by
    intro hrules
    have hbefore := h.undrifted hrules
    obtain ⟨hregular, hinTime⟩ := hadds.unruled hrules
    have hround : before.round ≠ 0 := by
      rw [h.round_eq]
      exact Nat.succ_ne_zero _
    simp only [earliest, boardingOf, hd, if_neg hround, h.time_eq, Direction.noLater_reverse,
      Direction.shift, Slacks.beforeBoarding] at hinTime
    have htransfer := hslacks.transfer
    rw [delayConstraints, Itinerary.drift, Itinerary.driftAfter_constraint] at hbefore
    rw [delayed_ride h.walks, Itinerary.drift_change h.walks,
      Itinerary.driftAfter_constraint, hbefore, Int.add_zero]
    refine drift_eq_zero hslacks hregular ?_
    simp only [Ride.departs_constraint, Ride.arrives_constraint]
    linarith

/-- A label after a walk. -/
theorem after_walk (h : c.Returns s access between r rest before) (hd : c.direction = .reverse)
    {stroll : Stroll} (hstroll : c.Strolls before stroll label)
    (hlast : ∀ ride stop, s.lastRide label = .ok (some (ride, stop)) →
      ∃ stop', s.lastRide before = .ok (some (ride, stop'))) :
    c.Returns s access (.walk stroll :: between) r rest label where
  walks := by
    intro leg hleg
    rcases List.mem_cons.mp hleg with rfl | hleg
    · rfl
    · exact h.walks leg hleg
  timed := h.timed
  round_eq := hstroll.round_eq.trans h.round_eq
  time_eq := by
    rw [hstroll.time_eq, h.time_eq, hd, Itinerary.spans_cons]
    show _ - stroll.duration = _ - (stroll.duration + _)
    ring
  ends := by
    intro ride stop hride
    obtain ⟨stop', hride⟩ := hlast ride stop hride
    exact h.ends ride stop' hride
  cost_eq := by
    have hbefore := h.cost_eq
    rw [hstroll.cost_eq, Itinerary.spans_cons]
    show _ = _ + _ + c.tariff.walk * (stroll.duration + _)
    linarith
  undrifted := h.undrifted

end Returns

/-- A label of a trail either is where the search starts, or where the parts return to. -/
theorem Traces.returns (h : c.Traces s access time id legs) (hj : c.Justified course s)
    (hnet : course.network.Sound) (hfor : c.For course request) (hd : c.direction = .reverse)
    (hslacks : c.slacks.Nonneg) (hwalks : ∀ leg ∈ course.access, leg.onBoard = false)
    (hlabel : s.arena[id]? = some label) :
    (c.Starts s access label ∧ legs = []) ∨ ∃ between r rest, legs = between ++ .ride r :: rest ∧
      c.Returns s access between r rest label := by
  induction h generalizing label with
  | access hlabel' horigin =>
    obtain rfl := Option.some.inj (hlabel.symm.trans hlabel')
    exact .inl ⟨(hj.label hlabel).starts horigin hwalks, rfl⟩
  | ride hlabel' horigin _ ih =>
    obtain rfl := Option.some.inj (hlabel.symm.trans hlabel')
    obtain ⟨before, hbefore, hadds⟩ := (hj.label hlabel).adds horigin hnet hfor
    rcases ih hbefore with ⟨hstarts, rfl⟩ | ⟨between, r, rest, rfl, hreturns⟩
    · exact .inr ⟨[], _, [], rfl, .one hd hslacks hstarts hadds⟩
    · exact .inr ⟨[], _, _, rfl, hreturns.after_ride hd hslacks hadds⟩
  | walk hlabel' horigin _ ih =>
    obtain rfl := Option.some.inj (hlabel.symm.trans hlabel')
    obtain ⟨before, hbefore, honBoard, hstroll⟩ := (hj.label hlabel).walks horigin
    rcases ih hbefore with ⟨hstarts, -⟩ | ⟨between, r, rest, rfl, hreturns⟩
    · rw [hstarts.walks] at honBoard
      cases honBoard
    · exact .inr ⟨_, r, rest, rfl,
        hreturns.after_walk hd hstroll fun _ _ => lastRide_of_walk horigin hbefore⟩

/-! ### Itineraries -/

/-- The transfers of an itinerary between walks. -/
theorem transferCount_eq {it : Itinerary} (haccess : it.access.leg.onBoard = false)
    (hegress : it.egress.leg.onBoard = false)
    (hlegs : it.legs.map Leg.untimed = legs.map Leg.untimed) :
    it.transferCount = Itinerary.ridesIn legs - 1 := by
  have hcount : it.rideCount = Itinerary.ridesIn it.legs := rfl
  rw [Itinerary.transferCount, haccess, hegress, hcount, Itinerary.ridesIn_congr hlegs]
  rfl

theorem ridesIn_delayed {found : Constraint} :
    Itinerary.ridesIn (delayConstraints found legs) = Itinerary.ridesIn legs := by
  induction legs generalizing found with
  | nil => rfl
  | cons leg rest ih =>
    cases leg with
    | ride r => exact congrArg (· + 1) ih
    | walk stroll => exact ih

theorem AllTimed_delayed {found : Constraint} (h : Itinerary.AllTimed legs) :
    Itinerary.AllTimed (delayConstraints found legs) := by
  intro r hr
  obtain ⟨r', constraint, hmem, rfl⟩ := exists_of_mem_delayConstraints hr
  exact ⟨(h r' hmem).board, (h r' hmem).alight⟩

/-- The itinerary of a search that follows the clock. -/
theorem Tallies.yields_new {departure : Time} (h : c.Tallies s access legs first label)
    (hd : c.direction = .forward) (haccess : access.onBoard = false)
    (hegress : egress.onBoard = false) (hround : label.round ≤ 255) :
    Yields (Itinerary.new access legs.reverse egress c.slacks c.tariff departure)
      fun it => it.criteria c.direction = c.finishCriteria label egress := by
  obtain ⟨rideEnd, hstate, -⟩ := h.adds
  obtain ⟨parts, hparts⟩ := List.getLast?_eq_some_iff.mp h.starts
  have hreverse : legs.reverse = .ride first :: parts.reverse := by
    rw [hparts, List.reverse_append]
    rfl
  have hrides : Itinerary.ridesIn legs.reverse = label.round := by
    rw [Itinerary.ridesIn_reverse, h.round_eq]
  have hafter : ((Itinerary.CostState.before c.slacks access.cost first).addAll c.tariff c.slacks
    legs.reverse).arrival = _ := Itinerary.CostState.addAll_arrival
  have htimed : Itinerary.AllTimed legs.reverse := fun r hr => h.timed r (List.mem_reverse.mp hr)
  rw [hstate] at hafter
  rw [hreverse] at hstate hrides hafter htimed ⊢
  refine (Itinerary.yields_new_ride haccess htimed).mono ?_
  rintro it - ⟨rfl, rfl, huntimed, -, hend, hcost⟩
  have htransfers := transferCount_eq haccess hegress huntimed
  rw [hrides] at htransfers
  have hcount : min it.transferCount 255 = min (label.round + 0) 255 - 1 := by omega
  have htime : it.endTime = label.time + it.egress.leg.duration :=
    hend.trans (congrArg (· + it.egress.leg.duration) hafter.symm)
  rw [hstate] at hcost
  show JourneyCriteria.mk _ _ _ = JourneyCriteria.mk _ _ _
  rw [hd, hegress, htime, hcount, hcost]
  rfl

/-- The itinerary of a search that goes back in time. -/
theorem Returns.yields_new {departure : Time} (h : c.Returns s access [] r rest label)
    (hd : c.direction = .reverse) (haccess : access.onBoard = false)
    (hegress : egress.onBoard = false) (hround : label.round ≤ 255) :
    Yields (Itinerary.new egress (delayConstraints .regular (.ride r :: rest)) access
      c.slacks c.tariff
      departure) fun it => it.criteria c.direction = { c.finishCriteria label egress with
        cost := (c.finishCriteria label egress).cost +
          Itinerary.drift c.tariff c.slacks it.legs } ∧
      (c.rules = none → Itinerary.drift c.tariff c.slacks it.legs = 0) := by
  have hrides : Itinerary.ridesIn (delayConstraints .regular (.ride r :: rest)) = label.round := by
    rw [ridesIn_delayed, h.round_eq, Itinerary.ridesIn_ride]
  have htime := h.time_eq
  rw [Itinerary.spans_nil, Int.sub_zero] at htime
  have htimed : Itinerary.AllTimed (delayConstraints .regular (.ride r :: rest)) :=
    AllTimed_delayed h.timed
  refine (Itinerary.yields_new_ride hegress htimed).mono ?_
  rintro it - ⟨rfl, rfl, huntimed, hstart, -, hcost⟩
  have hreturned := h.cost_eq
  have hundrifted := h.undrifted
  have htransfers := transferCount_eq hegress haccess huntimed
  change _ = Itinerary.ridesIn (delayConstraints .regular (.ride r :: rest)) - 1 at htransfers
  change it.cost = ((Itinerary.CostState.before c.slacks it.access.leg.cost r).addAll
    c.tariff c.slacks (delayConstraints .regular (.ride r :: rest))).cost + _ at hcost
  rw [hrides] at htransfers
  have hcount : min it.transferCount 255 = min (label.round + 0) 255 - 1 := by omega
  have hdrift : Itinerary.drift c.tariff c.slacks it.legs =
    Itinerary.drift c.tariff c.slacks (delayConstraints .regular (.ride r :: rest)) :=
    Itinerary.drift_congr huntimed
  rw [← hdrift] at hreturned hundrifted
  have hprice : it.cost = label.cost + it.access.leg.cost +
      Itinerary.drift c.tariff c.slacks it.legs := by
    rw [Itinerary.spans_nil, Int.mul_zero, Int.add_zero] at hreturned
    rw [hcost, Itinerary.CostState.addAll_before_cost]
    linarith
  have hfinish : c.finishCriteria label it.access.leg =
      ⟨c.direction.shift label.time it.access.leg.duration, min (label.round + 0) 255 - 1,
        label.cost + it.access.leg.cost⟩ := by
    rw [finishCriteria, hegress]
    rfl
  refine ⟨?_, hundrifted⟩
  rw [hfinish]
  show JourneyCriteria.mk _ _ _ = JourneyCriteria.mk _ _ _
  rw [hd, hcount, hprice, htime]
  exact congrArg (JourneyCriteria.mk · _ _) hstart

/-- The itinerary of a finish of a search that follows the clock has its criteria. -/
theorem yields_itinerary_forward (hs : s.Sound c.direction c.stopCount maxRounds)
    (hj : c.Justified course s) (hnet : course.network.Sound) (hfor : c.For course request)
    (hd : c.direction = .forward) (haccess : ∀ leg ∈ course.access, leg.onBoard = false)
    (hegress : ∀ leg ∈ c.egress, leg.onBoard = false) (hbyte : maxRounds ≤ 255)
    {e : Finish × JourneyCriteria} (he : e ∈ s.finishes.entries) :
    Yields (c.itinerary? s e.1) fun found => ∃ it, found = some it ∧
      it.criteria c.direction = e.2 := by
  obtain ⟨label, hlabel, hleg, -, hrides, hcriteria⟩ := hj.finish he
  have hwalks := hegress _ hleg
  have honBoard : label.onBoard = true := by simpa [hwalks] using hrides
  have hround := (hs.label_round_le hlabel).trans hbyte
  obtain ⟨trail, htrail⟩ := exists_trail hs hlabel
  have htraces := traces_of_trail htrail
  have hstart := haccess _ (htraces.access_mem hj)
  rcases htraces.tallies hj hnet hfor hd haccess hlabel with ⟨hstarts, -⟩ | ⟨first, htallies⟩
  · rw [hstarts.walks] at honBoard
    cases honBoard
  rw [hcriteria, itinerary?, htrail]
  show Yields (match c.direction with | .forward => _ | .reverse => _) _
  rw [hd]
  refine (yields_word _).bind fun departure _ _ => ?_
  rw [← hd]
  exact (htallies.yields_new hd hstart hwalks hround).map fun it hit => ⟨it, rfl, hit⟩

/-- The itinerary of a finish of a search that goes back in time has its criteria, but for the drift
of its changes. There is none where no rules apply. -/
theorem yields_itinerary_reverse (hs : s.Sound c.direction c.stopCount maxRounds)
    (hj : c.Justified course s) (hnet : course.network.Sound) (hfor : c.For course request)
    (hd : c.direction = .reverse) (hslacks : c.slacks.Nonneg)
    (haccess : ∀ leg ∈ course.access, leg.onBoard = false)
    (hegress : ∀ leg ∈ c.egress, leg.onBoard = false) (hbyte : maxRounds ≤ 255)
    {e : Finish × JourneyCriteria} (he : e ∈ s.finishes.entries) :
    Yields (c.itinerary? s e.1) fun found => ∃ it, found = some it ∧
      it.criteria c.direction =
        { e.2 with cost := e.2.cost + Itinerary.drift c.tariff c.slacks it.legs } ∧
      (c.rules = none → Itinerary.drift c.tariff c.slacks it.legs = 0) := by
  obtain ⟨label, hlabel, hleg, -, hrides, hcriteria⟩ := hj.finish he
  have hwalks := hegress _ hleg
  have honBoard : label.onBoard = true := by simpa [hwalks] using hrides
  have hround := (hs.label_round_le hlabel).trans hbyte
  obtain ⟨trail, htrail⟩ := exists_trail hs hlabel
  have htraces := traces_of_trail htrail
  have hstart := haccess _ (htraces.access_mem hj)
  rcases htraces.returns hj hnet hfor hd hslacks haccess hlabel with
    ⟨hstarts, -⟩ | ⟨between, r, rest, hlegs, hreturns⟩
  · rw [hstarts.walks] at honBoard
    cases honBoard
  -- the trail ends on board, and so not with a walk
  obtain rfl : between = [] := by
    obtain ⟨r', rest', hride⟩ := htraces.exists_ride hstart hlabel honBoard
    cases between with
    | nil => rfl
    | cons leg between =>
      obtain rfl := (List.cons.inj (hlegs.symm.trans hride)).1
      exact absurd (hreturns.walks _ List.mem_cons_self) (by simp [Leg.isRide])
  rw [hcriteria, itinerary?, htrail]
  show Yields (match c.direction with | .forward => _ | .reverse => _) _
  rw [hd]
  refine (Labels.yields_label (Array.getElem?_eq_some_iff.mp hlabel).1).bind fun last _ _ => ?_
  refine (yields_word _).bind fun departure _ _ => ?_
  rw [hlegs, ← hd]
  exact (hreturns.yields_new hd hstart hwalks hround).map fun it hit => ⟨it, rfl, hit⟩

/-- The itinerary of a finish has its criteria, unless the search goes back in time under rules. -/
theorem yields_itinerary (hs : s.Sound c.direction c.stopCount maxRounds)
    (hj : c.Justified course s) (hnet : course.network.Sound) (hfor : c.For course request)
    (hagrees : c.direction = .forward ∨ c.rules = none) (hslacks : c.slacks.Nonneg)
    (haccess : ∀ leg ∈ course.access, leg.onBoard = false)
    (hegress : ∀ leg ∈ c.egress, leg.onBoard = false) (hbyte : maxRounds ≤ 255)
    {e : Finish × JourneyCriteria} (he : e ∈ s.finishes.entries) :
    Yields (c.itinerary? s e.1) fun found => ∃ it, found = some it ∧
      it.criteria c.direction = e.2 := by
  cases hd : c.direction with
  | forward =>
    rw [← hd]
    exact yields_itinerary_forward hs hj hnet hfor hd haccess hegress hbyte he
  | reverse =>
    have hrules : c.rules = none := by simpa [hd] using hagrees
    refine (yields_itinerary_reverse hs hj hnet hfor hd hslacks haccess hegress hbyte he).mono ?_
    rintro _ - ⟨it, rfl, hcriteria, hundrifted⟩
    refine ⟨it, rfl, ?_⟩
    rw [← hd, hcriteria, hundrifted hrules, Int.add_zero]

end LabelScene

end JourneyPlanner
