import JourneyPlanner.Proofs.Itinerary.Building

/-!
# Times and costs of itineraries

An itinerary starts when its first ride asks for it and ends after its last one, and its cost is
added up part by part. A search that goes back in time prices the change between two rides with the
earlier of them, and the same parts then do not always cost the same.

* `Leg.span`: what a part takes by itself.
* `Itinerary.CostState.add`: the cost after one more part, as a number of any size.
* `Itinerary.yields_new_walks`, `Itinerary.yields_new_ride`: the times and the cost of an itinerary
  that starts with walks, or with a ride.
* `Itinerary.drift`: what the changes cost more in the order of the traveller.
-/

namespace JourneyPlanner

namespace Leg

/-- The seconds of a part, waits left out. -/
def span : Leg → Span
  | .ride r => r.arrives - r.departs
  | .walk stroll => stroll.duration

/-- The time after a part, the slack after a ride included. -/
def after (slack : Span) (time : Time) : Leg → Time
  | .ride r => r.arrives + slack
  | .walk stroll => time + stroll.duration

end Leg

/-- What a change costs more with its later ride than with its earlier one, with which a search that
goes back in time prices it. The wait of a traveller who stays seated is weighed as riding on one
trip or on the other, and neither pays for the stop where the trip is boarded. -/
def Tariff.drift (tariff : Tariff) (slacks : Slacks) (first : Ride) (walk : Span) (second : Ride) :
    Cost :=
  let gap := second.departs - first.arrives
  match second.constraint with
  | .staySeated =>
    (tariff.transitFactor second.trip.reluctance - tariff.transitFactor first.trip.reluctance) *
        gap.natAbs +
      (tariff.stopCost first.alightStop - tariff.stopCost second.boardStop) +
      tariff.wait * (slacks.alight - slacks.board)
  | .guaranteed => tariff.wait * (slacks.alight - slacks.board)
  | _ => tariff.wait * (((gap - slacks.alight - walk).natAbs + slacks.alight) -
      ((gap - slacks.board - walk).natAbs + slacks.board))

namespace Ride

variable {r : Ride} {constraint : Constraint}

@[simp] theorem departs_constraint : ({ r with constraint } : Ride).departs = r.departs := rfl

@[simp] theorem arrives_constraint : ({ r with constraint } : Ride).arrives = r.arrives := rfl

end Ride

/-- The drift of a change is what it costs more when its later ride is charged for it, each ride
being charged for the slack after it and for the stop where it ends. -/
theorem Tariff.drift_eq {tariff : Tariff} {slacks : Slacks} {first second : Ride} {walk : Span} :
    tariff.drift slacks first walk second =
      tariff.wait * (slacks.alight - slacks.board) + tariff.stopCost first.alightStop -
        tariff.stopCost second.boardStop +
      tariff.boardingPrice false (second.departs - if second.constraint.isFacilitated then
        first.arrives else first.arrives + slacks.alight + walk) second.boardStop second.trip
        second.constraint -
      tariff.boardingPrice false (first.arrives - if second.constraint.isFacilitated then
        second.departs else second.departs - slacks.board - walk) first.alightStop first.trip
        second.constraint := by
  have hsymm : ∀ x y : Int, (x - y).natAbs = (y - x).natAbs := fun x y => by
    rw [← Int.natAbs_neg, neg_sub]
  have hlate : second.departs - (first.arrives + slacks.alight + walk) =
      second.departs - first.arrives - slacks.alight - walk := by ring
  have hsoon : second.departs - slacks.board - walk - first.arrives =
      second.departs - first.arrives - slacks.board - walk := by ring
  unfold drift
  dsimp only
  cases second.constraint with
  | staySeated =>
    have hfacilitated : Constraint.staySeated.isFacilitated = true := rfl
    rw [if_pos hfacilitated, if_pos hfacilitated]
    simp only [boardingPrice]
    rw [hsymm first.arrives]
    ring
  | guaranteed =>
    have hfacilitated : Constraint.guaranteed.isFacilitated = true := rfl
    rw [if_pos hfacilitated, if_pos hfacilitated]
    simp only [boardingPrice]
    rw [hsymm first.arrives]
    ring
  | regular | minTime | notAllowed =>
    simp only [Constraint.isFacilitated, Constraint.isStaySeated, Constraint.isGuaranteed,
      beq_eq_false_iff_ne.mpr, ne_eq, reduceCtorEq, not_false_eq_true, Bool.or_self,
      Bool.false_eq_true, if_false, boardingPrice]
    rw [hsymm first.arrives, hlate, hsoon]
    ring

namespace Itinerary

def spans (legs : List Leg) : Span := (legs.map Leg.span).sum

def timeAfter (slack : Span) (time : Time) (legs : List Leg) : Time :=
  legs.foldl (Leg.after slack) time

/-- Walks that start when the part before them is over, the slack after a ride included. -/
def Placed (slack : Span) : Time → List Leg → Prop
  | _, [] => True
  | time, leg :: rest => (∀ stroll, leg = .walk stroll →
      stroll.startTime = time ∧ stroll.endTime = time + stroll.duration) ∧
    Placed slack (leg.after slack time) rest

def ridesIn (legs : List Leg) : Nat := (legs.filterMap Leg.ride?).length

/-- What the changes of some parts, after a ride and a walk, cost more in the order of the
traveller. -/
def driftAfter (tariff : Tariff) (slacks : Slacks) : Ride → Span → List Leg → Cost
  | _, _, [] => 0
  | last, walk, .walk stroll :: rest => driftAfter tariff slacks last (walk + stroll.duration) rest
  | last, walk, .ride r :: rest =>
    tariff.drift slacks last walk r + driftAfter tariff slacks r 0 rest

/-- What the changes of some parts cost more in the order of the traveller. -/
def drift (tariff : Tariff) (slacks : Slacks) : List Leg → Cost
  | [] => 0
  | .walk _ :: rest => drift tariff slacks rest
  | .ride r :: rest => driftAfter tariff slacks r 0 rest

variable {tariff : Tariff} {slacks : Slacks} {slack walk : Span} {legs others between : List Leg}
  {time : Time} {r last : Ride} {leg : Leg}

@[simp] theorem spans_nil : spans [] = 0 := rfl

@[simp] theorem spans_cons : spans (leg :: legs) = leg.span + spans legs := by simp [spans]

@[simp] theorem timeAfter_cons :
    timeAfter slack time (leg :: legs) = timeAfter slack (leg.after slack time) legs := rfl

@[simp] theorem ridesIn_nil : ridesIn [] = 0 := rfl

@[simp] theorem ridesIn_ride : ridesIn (.ride r :: legs) = ridesIn legs + 1 := rfl

@[simp] theorem ridesIn_walk {stroll : Stroll} :
    ridesIn (.walk stroll :: legs) = ridesIn legs := rfl

theorem ridesIn_reverse : ridesIn legs.reverse = ridesIn legs := by
  simp [ridesIn, List.filterMap_reverse]

theorem ridesIn_append : ridesIn (legs ++ others) = ridesIn legs + ridesIn others := by
  simp [ridesIn, List.filterMap_append]

theorem rides_of_walks (hwalks : ∀ leg ∈ between, leg.isRide = false) :
    between.filterMap Leg.ride? = [] := by
  rw [List.filterMap_eq_nil_iff]
  intro leg hleg
  have := hwalks leg hleg
  cases leg with
  | ride r => cases this
  | walk stroll => rfl

theorem ridesIn_walks (hwalks : ∀ leg ∈ between, leg.isRide = false) : ridesIn between = 0 := by
  rw [ridesIn, rides_of_walks hwalks, List.length_nil]

/-- What is added up over parts without the times of walks is the same for parts with them. -/
theorem foldl_untimed {σ : Type} {step : σ → Leg → σ}
    (hstep : ∀ s leg, step s leg.untimed = step s leg)
    (h : others.map Leg.untimed = legs.map Leg.untimed) (s : σ) :
    others.foldl step s = legs.foldl step s := by
  have hmap : ∀ parts : List Leg, parts.foldl step s = (parts.map Leg.untimed).foldl step s := by
    intro parts
    rw [List.foldl_map]
    exact congrArg (fun step => parts.foldl step s)
      (funext fun s => funext fun leg => (hstep s leg).symm)
  rw [hmap others, h, ← hmap]

/-- The number of rides does not depend on the times of walks. -/
theorem ridesIn_congr (h : others.map Leg.untimed = legs.map Leg.untimed) :
    ridesIn others = ridesIn legs := by
  have hcount : ∀ parts : List Leg, ridesIn parts = ridesIn (parts.map Leg.untimed) := by
    intro parts
    rw [ridesIn, ridesIn, List.filterMap_map]
    congr 2
    funext leg
    cases leg <;> rfl
  rw [hcount others, h, ← hcount]

/-! ### Drift -/

theorem driftAfter_untimed : driftAfter tariff slacks last walk (legs.map Leg.untimed) =
    driftAfter tariff slacks last walk legs := by
  induction legs generalizing last walk with
  | nil => rfl
  | cons leg rest ih =>
    cases leg with
    | ride r => exact congrArg (tariff.drift slacks last walk r + ·) ih
    | walk stroll => exact ih

/-- The drift does not depend on the times of walks. -/
theorem drift_congr (h : others.map Leg.untimed = legs.map Leg.untimed) :
    drift tariff slacks others = drift tariff slacks legs := by
  have huntimed : ∀ parts : List Leg,
      drift tariff slacks (parts.map Leg.untimed) = drift tariff slacks parts := by
    intro parts
    induction parts with
    | nil => rfl
    | cons leg rest ih =>
      cases leg with
      | ride r => exact driftAfter_untimed
      | walk stroll => exact ih
  rw [← huntimed, h, huntimed]

/-- What is known of the change before a ride does not matter for those after it. -/
theorem driftAfter_constraint {constraint : Constraint} :
    driftAfter tariff slacks { last with constraint } walk legs =
      driftAfter tariff slacks last walk legs := by
  induction legs generalizing walk with
  | nil => rfl
  | cons leg rest ih =>
    cases leg with
    | ride r => rfl
    | walk stroll => exact ih

/-- Only the seconds of the walks between two rides count for the drift of the change. -/
theorem driftAfter_walks (hwalks : ∀ leg ∈ between, leg.isRide = false) :
    driftAfter tariff slacks last walk (between ++ legs) =
      driftAfter tariff slacks last (walk + spans between) legs := by
  induction between generalizing walk with
  | nil => rw [List.nil_append, spans_nil, Int.add_zero]
  | cons leg rest ih =>
    cases leg with
    | ride r => exact absurd (hwalks (.ride r) List.mem_cons_self) (by simp [Leg.isRide])
    | walk stroll =>
      rw [List.cons_append, driftAfter, ih fun leg hleg => hwalks leg (List.mem_cons_of_mem _ hleg),
        spans_cons, ← Int.add_assoc]
      rfl

/-- The drift of parts that start with a change. -/
theorem drift_change {first second : Ride} (hwalks : ∀ leg ∈ between, leg.isRide = false) :
    drift tariff slacks (.ride first :: (between ++ .ride second :: legs)) =
      tariff.drift slacks first (spans between) second +
        driftAfter tariff slacks second 0 legs := by
  rw [drift, driftAfter_walks hwalks, Int.zero_add]
  rfl

/-! ### Adding up -/

namespace CostState

/-- Since when a traveller waits for a ride. -/
def since (slacks : Slacks) (state : CostState) (r : Ride) : Time :=
  if state.first then r.departs - slacks.board
  else if r.constraint.isFacilitated then state.alighting else state.arrival

/-- The state after one more part, in numbers of any size. -/
def add (tariff : Tariff) (slacks : Slacks) (state : CostState) : Leg → CostState
  | .ride r => {
      cost := state.cost +
        tariff.boardingPrice state.first (r.departs - state.since slacks r) r.boardStop r.trip
          r.constraint +
        tariff.ridingPrice slacks.alight (r.arrives - r.departs) r.trip r.alightStop
      first := false
      arrival := r.arrives + slacks.alight
      alighting := r.arrives }
  | .walk stroll => { state with
      cost := state.cost + tariff.walk * stroll.duration
      arrival := state.arrival + stroll.duration }

def addAll (tariff : Tariff) (slacks : Slacks) (state : CostState) (legs : List Leg) : CostState :=
  legs.foldl (add tariff slacks) state

/-- Before a ride with which an itinerary starts. -/
def before (slacks : Slacks) (cost : Cost) (r : Ride) : CostState :=
  ⟨cost, true, r.departs - slacks.board, r.departs - slacks.board⟩

/-- Before the walks up to the first ride of an itinerary, which end when it can be boarded. -/
def start (slacks : Slacks) (access : Connector) (walked : Span) (r : Ride) : CostState :=
  ⟨access.cost, !access.onBoard, r.departs - slacks.board - walked,
    r.departs - slacks.board - walked⟩

/-- After a ride that is over, with nothing spent. -/
def afterRide (slacks : Slacks) (r : Ride) : CostState :=
  ⟨0, false, r.arrives + slacks.alight, r.arrives⟩

variable {state : CostState}

@[simp] theorem afterRide_constraint {constraint : Constraint} :
    afterRide slacks { r with constraint } = afterRide slacks r := rfl

@[simp] theorem addAll_nil : addAll tariff slacks state [] = state := rfl

@[simp] theorem addAll_cons :
    addAll tariff slacks state (leg :: legs) =
      addAll tariff slacks (add tariff slacks state leg) legs :=
  rfl

theorem addAll_append : addAll tariff slacks state (legs ++ others) =
    addAll tariff slacks (addAll tariff slacks state legs) others :=
  List.foldl_append

/-- Costs do not depend on the times of walks. -/
theorem addAll_congr (h : others.map Leg.untimed = legs.map Leg.untimed) :
    addAll tariff slacks state others = addAll tariff slacks state legs :=
  foldl_untimed (fun _ leg => by cases leg <;> rfl) h state

theorem addAll_arrival :
    (addAll tariff slacks state legs).arrival = timeAfter slacks.alight state.arrival legs := by
  induction legs generalizing state with
  | nil => rfl
  | cons leg rest ih =>
    rw [addAll_cons, ih, timeAfter_cons]
    cases leg <;> rfl

/-- What has been spent before does not matter for what parts cost. -/
theorem addAll_spent (spent : Cost) :
    addAll tariff slacks { state with cost := spent + state.cost } legs =
    { addAll tariff slacks state legs with
      cost := spent + (addAll tariff slacks state legs).cost } := by
  induction legs generalizing state with
  | nil => rfl
  | cons leg rest ih =>
    rw [addAll_cons, addAll_cons, ← ih]
    congr 1
    cases leg with
    | ride r =>
      simp only [add, since, Int.add_assoc]
    | walk stroll => simp only [add, Int.add_assoc]

/-- What was spent before a ride is added to all that follows. -/
theorem addAll_before_cost {cost : Cost} : (addAll tariff slacks (before slacks cost r) legs).cost =
    cost + (addAll tariff slacks (before slacks 0 r) legs).cost := by
  have hspent : addAll tariff slacks { before slacks 0 r with
      cost := cost + (before slacks 0 r).cost } legs = _ := addAll_spent cost
  have hstate : before slacks cost r = { before slacks 0 r with
      cost := cost + (before slacks 0 r).cost } := by
    simp only [before, Int.add_zero]
  rw [hstate, hspent]

/-- The cost of parts that start with a ride. -/
theorem addAll_ride_cost : (addAll tariff slacks state (.ride r :: legs)).cost =
    (add tariff slacks state (.ride r)).cost +
      (addAll tariff slacks (afterRide slacks r) legs).cost := by
  have hspent : addAll tariff slacks { afterRide slacks r with
      cost := (add tariff slacks state (.ride r)).cost + (afterRide slacks r).cost } legs = _ :=
    addAll_spent _
  have hstate : add tariff slacks state (.ride r) = { afterRide slacks r with
      cost := (add tariff slacks state (.ride r)).cost + (afterRide slacks r).cost } := by
    simp only [afterRide, Int.add_zero]
    rfl
  exact (congrArg (fun state => (addAll tariff slacks state legs).cost) hstate).trans
    (congrArg CostState.cost hspent)

/-- Walks cost their seconds, and the next ride is waited for since they are over. -/
theorem addAll_walks (hwalks : ∀ leg ∈ between, leg.isRide = false) :
    addAll tariff slacks state between = { state with
      cost := state.cost + tariff.walk * spans between
      arrival := state.arrival + spans between } := by
  induction between generalizing state with
  | nil => simp
  | cons leg rest ih =>
    cases leg with
    | ride r => exact absurd (hwalks (.ride r) List.mem_cons_self) (by simp [Leg.isRide])
    | walk stroll =>
      rw [addAll_cons, ih fun leg hleg => hwalks leg (List.mem_cons_of_mem _ hleg), spans_cons]
      simp only [add, Leg.span, Int.mul_add, Int.add_assoc]

/-- The cost of a ride with which an itinerary starts. -/
theorem add_before_cost {cost : Cost} : (add tariff slacks (before slacks cost r)
    (.ride { r with constraint := .regular })).cost = cost +
      (tariff.wait * slacks.board.natAbs + tariff.board + tariff.stopCost r.boardStop) +
      tariff.ridingPrice slacks.alight (r.arrives - r.departs) r.trip r.alightStop := by
  have hwait : r.departs - (r.departs - slacks.board) = slacks.board := sub_sub_cancel _ _
  rw [← hwait]
  rfl

/-- The cost of parts after a ride, up to the next one and from there on. -/
theorem addAll_next_cost {first second : Ride} (hwalks : ∀ leg ∈ between, leg.isRide = false) :
    (addAll tariff slacks (afterRide slacks first) (between ++ .ride second :: legs)).cost =
      tariff.walk * spans between +
      tariff.boardingPrice false (second.departs - if second.constraint.isFacilitated then
        first.arrives else first.arrives + slacks.alight + spans between) second.boardStop
        second.trip second.constraint +
      tariff.ridingPrice slacks.alight (second.arrives - second.departs) second.trip
        second.alightStop +
      (addAll tariff slacks (afterRide slacks second) legs).cost := by
  have hnothing : (afterRide slacks first).cost + tariff.walk * spans between =
      tariff.walk * spans between := Int.zero_add _
  rw [addAll_append, addAll_walks hwalks, addAll_ride_cost, hnothing]
  rfl

/-- The cost of parts that start with a change. -/
theorem addAll_change {first second : Ride} (hwalks : ∀ leg ∈ between, leg.isRide = false) :
    (addAll tariff slacks state (.ride first :: (between ++ .ride second :: legs))).cost =
      (add tariff slacks state (.ride first)).cost + tariff.walk * spans between +
      tariff.boardingPrice false (second.departs - if second.constraint.isFacilitated then
        first.arrives else first.arrives + slacks.alight + spans between) second.boardStop
        second.trip second.constraint +
      tariff.ridingPrice slacks.alight (second.arrives - second.departs) second.trip
        second.alightStop +
      (addAll tariff slacks (afterRide slacks second) legs).cost := by
  rw [addAll_ride_cost, addAll_next_cost hwalks]
  ring

/-- The cost after a ride is the one in numbers of any size, unless a number leaves its width. -/
theorem yields_addRide (htimed : r.Timed) :
    Yields (addLegCost tariff slacks state (.ride r)) (· = state.add tariff slacks (.ride r)) := by
  rw [addLegCost, htimed.board, htimed.alight]
  have hrest : ∀ since, since = state.since slacks r → Yields (do
      let boarding ← tariff.boardingCost state.first since r.boardStop r.departs r.trip r.constraint
      let boarded ← word (state.cost + boarding)
      let riding ← tariff.ridingCost 0 slacks.alight (← r.duration) r.trip r.alightStop
      let alighting ← (.ok r.arrives : Checked Time)
      return ({
        cost := ← word (boarded + riding)
        first := false
        arrival := ← word (alighting + slacks.alight)
        alighting } : CostState)) (· = state.add tariff slacks (.ride r)) := by
    rintro _ rfl
    refine Tariff.yields_boardingCost.bind ?_
    rintro _ - rfl
    refine (yields_word _).bind ?_
    rintro _ - ⟨rfl, -⟩
    refine htimed.yields_duration.bind ?_
    rintro _ - rfl
    refine Tariff.yields_ridingCost.bind ?_
    rintro _ - rfl
    refine (yields_word _).bind ?_
    rintro _ - ⟨rfl, -⟩
    refine (yields_word _).bind ?_
    rintro _ - ⟨rfl, -⟩
    rw [Int.zero_add]
    rfl
  show Yields (if state.first = true then _ else _) _
  split
  case isTrue hfirst =>
    refine (yields_word _).bind ?_
    rintro _ - ⟨rfl, -⟩
    exact hrest _ (if_pos hfirst).symm
  case isFalse hfirst => exact hrest _ (if_neg hfirst).symm

/-- The cost after a walk that starts when the part before it is over is the one in numbers of any
size. -/
theorem yields_addWalk {stroll : Stroll} (hend : stroll.endTime = state.arrival + stroll.duration) :
    Yields (addLegCost tariff slacks state (.walk stroll))
      (· = state.add tariff slacks (.walk stroll)) := by
  refine Tariff.yields_walkCost.bind ?_
  rintro _ - rfl
  refine (yields_word _).bind ?_
  rintro _ - ⟨rfl, -⟩
  rw [yields_pure, hend]
  rfl

/-- The parts of an itinerary add up. -/
theorem yields_addAll (htimed : AllTimed legs) (hplaced : Placed slacks.alight state.arrival legs) :
    Yields (legs.foldlM (addLegCost tariff slacks) state)
      (· = state.addAll tariff slacks legs) := by
  induction legs generalizing state with
  | nil => rfl
  | cons leg rest ih =>
    rw [List.foldlM_cons]
    obtain ⟨hplace, hplaced⟩ := hplaced
    refine Yields.bind (P := (· = state.add tariff slacks leg)) ?_ ?_
    · cases leg with
      | ride r => exact yields_addRide (htimed r List.mem_cons_self)
      | walk stroll => exact yields_addWalk (hplace stroll rfl).2
    rintro _ - rfl
    refine ih htimed.cons ?_
    cases leg <;> exact hplaced

end CostState

/-! ### Itineraries -/

/-- Parts placed one after the other. -/
theorem yields_legsAfter_placed (htimed : AllTimed legs) :
    Yields (legsAfter slack time legs) fun result =>
      Placed slack time result.1 ∧ result.2 = timeAfter slack time legs := by
  induction legs generalizing time with
  | nil => exact ⟨trivial, rfl⟩
  | cons first rest ih =>
    cases first with
    | walk stroll =>
      refine (yields_word _).bind ?_
      rintro _ - ⟨rfl, -⟩
      refine (ih htimed.cons).bind ?_
      rintro result - ⟨hplaced, hfree⟩
      refine ⟨⟨?_, hplaced⟩, hfree⟩
      rintro _ ⟨⟩
      exact ⟨rfl, rfl⟩
    | ride r =>
      rw [legsAfter, (htimed r (by simp)).alight]
      refine (yields_word _).bind ?_
      rintro _ - ⟨rfl, -⟩
      refine (ih htimed.cons).bind ?_
      rintro result - ⟨hplaced, hfree⟩
      exact ⟨⟨by rintro _ ⟨⟩, hplaced⟩, hfree⟩

/-- Walks placed so that they end at a time. -/
theorem yields_walksBefore_placed (slack : Span) (hwalks : ∀ leg ∈ between, leg.isRide = false) :
    Yields (walksBefore time between) fun result =>
      Placed slack result.2 result.1 ∧ timeAfter slack result.2 result.1 = time ∧
        result.2 = time - spans between := by
  induction between with
  | nil => simp [walksBefore, Placed, timeAfter]
  | cons leg rest ih =>
    cases leg with
    | ride r => exact absurd (hwalks (.ride r) List.mem_cons_self) (by simp [Leg.isRide])
    | walk stroll =>
      refine (ih fun leg hleg => hwalks leg (List.mem_cons_of_mem _ hleg)).bind ?_
      rintro ⟨placed, ending⟩ - ⟨hplaced, hafter, rfl⟩
      refine (yields_word _).bind ?_
      rintro _ - ⟨rfl, -⟩
      have hend : time - spans rest - stroll.duration + stroll.duration = time - spans rest :=
        sub_add_cancel _ _
      refine ⟨⟨?_, ?_⟩, ?_, ?_⟩
      · rintro _ ⟨⟩
        exact ⟨rfl, hend.symm⟩
      · show Placed slack (time - spans rest - stroll.duration + stroll.duration) placed
        rwa [hend]
      · exact (congrArg (fun start => timeAfter slack start placed) hend).trans hafter
      · show _ = time - (stroll.duration + spans rest)
        ring

theorem placed_append : Placed slack time (legs ++ others) ↔
    Placed slack time legs ∧ Placed slack (timeAfter slack time legs) others := by
  induction legs generalizing time with
  | nil => simp [Placed, timeAfter]
  | cons leg rest ih => rw [List.cons_append, Placed, Placed, ih, and_assoc, timeAfter_cons]

/-- A ride does not start when the part before it is over. -/
theorem Placed.of_ride (h : Placed slack time others)
    (hride : others.map Leg.untimed = (Leg.ride r :: legs).map Leg.untimed) (time' : Time) :
    Placed slack time' others := by
  cases others with
  | nil => trivial
  | cons leg rest =>
    cases leg with
    | ride r' => exact ⟨by rintro _ ⟨⟩, h.2⟩
    | walk stroll => cases (List.cons.inj hride).1

/-- An itinerary with walks up to its first ride: its parts, its times and its cost. -/
theorem yields_new_walks {access egress : Connector} {departure : Time}
    (hwalks : ∀ leg ∈ between, leg.isRide = false) (htimed : AllTimed (.ride r :: legs)) :
    Yields (Itinerary.new access (between ++ .ride r :: legs) egress slacks tariff departure)
      fun it => it.access.leg = access ∧ it.egress.leg = egress ∧
      it.legs.map Leg.untimed = (between ++ .ride r :: legs).map Leg.untimed ∧
      it.startTime = r.departs - slacks.board - spans between - access.duration ∧
      it.endTime = timeAfter slacks.alight (r.departs - slacks.board) (.ride r :: legs) +
        egress.duration ∧
      it.cost = ((CostState.start slacks access (spans between) r).addAll tariff slacks
        (between ++ .ride r :: legs)).cost + egress.cost := by
  have hpass : ∀ leg ∈ between, (!leg.isRide) = true := fun leg hleg => by simp [hwalks leg hleg]
  have htake : (Leg.ride r :: legs).takeWhile (fun leg => !leg.isRide) = [] := rfl
  have hdrop : (Leg.ride r :: legs).dropWhile (fun leg => !leg.isRide) = .ride r :: legs := rfl
  rw [Itinerary.new, List.takeWhile_append_of_pos hpass, List.dropWhile_append_of_pos hpass, htake,
    hdrop, List.append_nil]
  dsimp only
  rw [(htimed r (by simp)).board]
  refine (yields_word _).bind ?_
  rintro _ - ⟨rfl, -⟩
  refine (yields_walksBefore.and (yields_walksBefore_placed slacks.alight hwalks)).bind ?_
  rintro ⟨before, accessEnd⟩ - ⟨hbefore, hplacedBefore, hready, rfl⟩
  refine ((yields_legsAfter htimed).and (yields_legsAfter_placed htimed)).bind ?_
  rintro ⟨timed, free⟩ - ⟨huntimed, hplaced, rfl⟩
  dsimp only at hbefore hplacedBefore hready huntimed hplaced ⊢
  have hall : (before ++ timed).map Leg.untimed = (between ++ .ride r :: legs).map Leg.untimed := by
    rw [List.map_append, hbefore, huntimed, ← List.map_append]
  have htimedAll : AllTimed (between ++ .ride r :: legs) :=
    allTimed_append.mpr ⟨.of_walks hwalks, htimed⟩
  refine (yields_word _).bind ?_
  rintro _ - ⟨rfl, -⟩
  refine (yields_word _).bind ?_
  rintro _ - ⟨rfl, -⟩
  refine Yields.bind (P := (· = ((CostState.start slacks access (spans between) r).addAll tariff
    slacks (between ++ .ride r :: legs)).cost + egress.cost)) ?_ ?_
  · rw [generalizedCost, ← CostState.addAll_congr hall]
    have hplacedAll : Placed slacks.alight (r.departs - slacks.board - spans between)
        (before ++ timed) := by
      rw [placed_append, hready]
      exact ⟨hplacedBefore, hplaced.of_ride huntimed _⟩
    refine (CostState.yields_addAll (htimedAll.of_untimed hall) hplacedAll).bind ?_
    rintro _ - rfl
    exact (yields_word _).mono fun _ _ h => h.1
  · rintro cost - rfl
    exact ⟨rfl, rfl, hall, rfl, rfl, rfl⟩

/-- An itinerary that starts with a ride: its parts, its times and its cost. -/
theorem yields_new_ride {access egress : Connector} {departure : Time}
    (haccess : access.onBoard = false) (htimed : AllTimed (.ride r :: legs)) :
    Yields (Itinerary.new access (.ride r :: legs) egress slacks tariff departure) fun it =>
      it.access.leg = access ∧ it.egress.leg = egress ∧
      it.legs.map Leg.untimed = (Leg.ride r :: legs).map Leg.untimed ∧
      it.startTime = r.departs - slacks.board - access.duration ∧
      it.endTime = timeAfter slacks.alight (r.departs - slacks.board) (.ride r :: legs) +
        egress.duration ∧
      it.cost = ((CostState.before slacks access.cost r).addAll tariff slacks
        (.ride r :: legs)).cost + egress.cost := by
  have hstart : CostState.start slacks access (spans []) r =
      CostState.before slacks access.cost r := by
    simp [CostState.start, CostState.before, haccess]
  have hwalks : ∀ leg ∈ ([] : List Leg), leg.isRide = false := by simp
  have hnew : Yields (Itinerary.new access ([] ++ .ride r :: legs) egress slacks tariff departure)
      _ := yields_new_walks hwalks htimed
  rw [hstart] at hnew
  simpa using hnew

end Itinerary

end JourneyPlanner
