import JourneyPlanner.Proofs.Route.Real

/-!
# Changes between the rides of a trail

Two rides of a trail with nothing but walks between them are a change that a traveller can make. A
search that goes back in time finds the constraint on the change with the earlier ride, and the
change is right once the constraint has been given to the later one.

* `delayConstraints_decompose`: the changes of parts with delayed constraints.
* `LabelScene.Changes`: a change of a trail, in the order of the traveller.
* `LabelScene.Traces.changes`: every change of a trail is one that can be made.
-/

namespace JourneyPlanner

variable {net : Network} {slacks : Slacks} {first second prior last : Ride}
  {between legs : List Leg}

/-! ### Constraints of changes -/

/-- A change does not depend on what is known of the change before it. -/
theorem Network.IsChange.withConstraint (h : net.IsChange slacks first between second)
    (found : Constraint) :
    net.IsChange slacks { first with constraint := found } between second :=
  h

@[simp] theorem delayConstraints_map_source {found : Constraint} :
    (LabelScene.delayConstraints found legs).map Leg.source = legs.map Leg.source := by
  induction legs generalizing found with
  | nil => rfl
  | cons leg rest ih => cases leg <;> simp [LabelScene.delayConstraints, Leg.source, ih]

@[simp] theorem delayConstraints_map_target {found : Constraint} :
    (LabelScene.delayConstraints found legs).map Leg.target = legs.map Leg.target := by
  induction legs generalizing found with
  | nil => rfl
  | cons leg rest ih => cases leg <;> simp [LabelScene.delayConstraints, Leg.target, ih]

@[simp] theorem delayConstraints_map_isRide {found : Constraint} :
    (LabelScene.delayConstraints found legs).map Leg.isRide = legs.map Leg.isRide := by
  induction legs generalizing found with
  | nil => rfl
  | cons leg rest ih => cases leg <;> simp [LabelScene.delayConstraints, Leg.isRide, ih]

theorem mem_delayConstraints_walk {found : Constraint} {stroll : Stroll} :
    .walk stroll ∈ LabelScene.delayConstraints found legs ↔ .walk stroll ∈ legs := by
  induction legs generalizing found with
  | nil => rfl
  | cons leg rest ih => cases leg <;> simp [LabelScene.delayConstraints, ih]

/-- Delayed rides are those of the trail, but for their constraints. -/
theorem exists_of_mem_delayConstraints {found : Constraint} {r : Ride}
    (h : .ride r ∈ LabelScene.delayConstraints found legs) :
    ∃ r' constraint, .ride r' ∈ legs ∧ r = { r' with constraint } := by
  induction legs generalizing found with
  | nil => cases h
  | cons leg rest ih =>
    cases leg with
    | ride r' =>
      rcases List.mem_cons.mp h with heq | h
      · exact ⟨r', found, by simp, Leg.ride.inj heq⟩
      · obtain ⟨r', constraint, hmem, heq⟩ := ih h
        exact ⟨r', constraint, List.mem_cons_of_mem _ hmem, heq⟩
    | walk stroll =>
      rcases List.mem_cons.mp h with heq | h
      · cases heq
      · obtain ⟨r', constraint, hmem, heq⟩ := ih h
        exact ⟨r', constraint, List.mem_cons_of_mem _ hmem, heq⟩

/-- A ride among delayed parts is one of the trail, whose constraint is given to the rest. -/
theorem delayConstraints_eq_append_ride {found : Constraint} {before after : List Leg}
    (h : LabelScene.delayConstraints found legs = before ++ .ride first :: after) :
    ∃ before' first' constraint rest, legs = before' ++ .ride first' :: rest ∧
      first = { first' with constraint } ∧
      after = LabelScene.delayConstraints first'.constraint rest ∧
      ((∀ leg ∈ before, leg.isRide = false) → before = before' ∧ constraint = found) := by
  induction legs generalizing found before with
  | nil => simp [LabelScene.delayConstraints] at h
  | cons leg rest ih =>
    cases before with
    | nil =>
      cases leg with
      | walk stroll => cases h
      | ride r =>
        obtain ⟨hfirst, hafter⟩ := List.cons.inj h
        exact ⟨[], r, found, rest, rfl, (Leg.ride.inj hfirst).symm, hafter.symm,
          fun _ => ⟨rfl, rfl⟩⟩
    | cons part before =>
      cases leg with
      | walk stroll =>
        obtain ⟨hpart, hrest⟩ := List.cons.inj h
        obtain ⟨before', first', constraint, rest', rfl, hfirst, hafter, hwalks⟩ := ih hrest
        refine ⟨.walk stroll :: before', first', constraint, rest', rfl, hfirst, hafter,
          fun hbefore => ?_⟩
        obtain ⟨rfl, hfound⟩ := hwalks fun leg hleg => hbefore leg (List.mem_cons_of_mem _ hleg)
        exact ⟨by rw [hpart], hfound⟩
      | ride r =>
        obtain ⟨hpart, hrest⟩ := List.cons.inj h
        obtain ⟨before', first', constraint, rest', rfl, hfirst, hafter, -⟩ := ih hrest
        refine ⟨.ride r :: before', first', constraint, rest', rfl, hfirst, hafter,
          fun hbefore => ?_⟩
        have := hbefore part (by simp)
        rw [← hpart] at this
        cases this

/-- The changes of delayed parts are those of the trail, the constraint of each being given to its
later ride. -/
theorem delayConstraints_decompose {found : Constraint} {before after : List Leg}
    (h : LabelScene.delayConstraints found legs =
      before ++ .ride first :: (between ++ .ride second :: after))
    (hwalks : ∀ leg ∈ between, leg.isRide = false) :
    ∃ before' first' second' constraint after',
      legs = before' ++ .ride first' :: (between ++ .ride second' :: after') ∧
      first = { first' with constraint } ∧
      second = { second' with constraint := first'.constraint } := by
  obtain ⟨before', first', constraint, rest, rfl, hfirst, hafter, -⟩ :=
    delayConstraints_eq_append_ride h
  obtain ⟨between', second', constraint', after', rfl, hsecond, -, hbetween⟩ :=
    delayConstraints_eq_append_ride hafter.symm
  obtain ⟨rfl, rfl⟩ := hbetween hwalks
  exact ⟨before', first', second', constraint, after', rfl, hfirst, hsecond⟩

namespace LabelScene

variable {c : LabelScene} {course : Course} {s : Labels} {id previous : LabelId} {label : Label}
  {access : Connector} {time : Time} {ride ride' : SearchRide} {stop stop' : StopId} {walk : Span}
  {date : Date}

/-! ### Changes of trails -/

/-- A change of a trail in the order of the traveller. In the search `prior` comes before `last`. -/
def Changes (c : LabelScene) (net : Network) (prior : Ride) (between : List Leg) (last : Ride) :
    Prop :=
  match c.direction with
  | .forward => net.IsChange c.slacks prior between last
  | .reverse => net.IsChange c.slacks last between { prior with constraint := last.constraint }

/-- What is known of the search for rules of a pattern. -/
theorem ruleSearch_eq_some {p : Pattern} {search : RuleSearch} (h : c.ruleSearch p = some search) :
    search.direction = c.direction ∧ search.definitive = c.definitive := by
  obtain ⟨index, -, rfl⟩ := Option.map_eq_some_iff.mp h
  exact ⟨rfl, rfl⟩

/-- The times of the ride at a label are those of its trip. -/
theorem Derived.ride_times (h : c.Derived course s label)
    (horigin : label.origin = .ride ride previous) (hnet : course.network.Sound) :
    ride.boardTime = c.direction.boardingAt ride.trip ride.boardPosition ∧
      ride.alightTime = c.direction.alightingAt ride.trip ride.alightPosition := by
  obtain ⟨_, _, _, _, e, _, -, -, -, -, -, -, -, -, -, hchosen, hride, -⟩ := h.ride_inv horigin hnet
  rw [hride]
  exact ⟨hchosen.time, rfl⟩

/-- A trip that is boarded late enough in the sense of the search is boarded late enough. -/
theorem TimelyAfter.timely
    (h : c.TimelyAfter (c.direction.alightingAt ride'.trip ride'.alightPosition) walk
      (c.direction.boardingAt ride.trip ride.boardPosition) ride.constraint)
    (hprior : (c.realRide ride' stop').Timed) (hlast : (c.realRide ride stop).Timed) :
    match c.direction with
    | .forward => c.slacks.Timely (c.realRide ride' stop') walk (c.realRide ride stop)
    | .reverse => c.slacks.Timely (c.realRide ride stop) walk
        { c.realRide ride' stop' with constraint := ride.constraint } := by
  unfold TimelyAfter at h
  unfold realRide at hprior hlast ⊢
  cases hd : c.direction with
  | forward =>
    simp only [hd] at h hprior hlast ⊢
    refine ⟨_, _, hprior.alight, hlast.board, ?_⟩
    set arrival := Direction.forward.alightingAt ride'.trip ride'.alightPosition
    set departure := Direction.forward.boardingAt ride.trip ride.boardPosition
    show if ride.constraint.isFacilitated then arrival + walk ≤ departure
      else arrival + c.slacks.alight + walk + c.slacks.transfer + c.slacks.board ≤ departure
    split at h
    case isTrue hfacilitated =>
      rw [if_pos hfacilitated]
      exact Direction.noLater_forward.mp h
    case isFalse hfacilitated =>
      rw [if_neg hfacilitated]
      have h := Direction.noLater_forward.mp h
      simp only [Direction.shift, Slacks.afterAlighting, Slacks.beforeBoarding] at h
      linarith
  | reverse =>
    simp only [hd] at h hprior hlast ⊢
    refine ⟨_, _, hlast.alight, hprior.board, ?_⟩
    set departure := Direction.reverse.alightingAt ride'.trip ride'.alightPosition
    set arrival := Direction.reverse.boardingAt ride.trip ride.boardPosition
    show if ride.constraint.isFacilitated then arrival + walk ≤ departure
      else arrival + c.slacks.alight + walk + c.slacks.transfer + c.slacks.board ≤ departure
    split at h
    case isTrue hfacilitated =>
      rw [if_pos hfacilitated]
      have h := Direction.noLater_reverse.mp h
      simp only [Direction.shift] at h
      linarith
    case isFalse hfacilitated =>
      rw [if_neg hfacilitated]
      have h := Direction.noLater_reverse.mp h
      simp only [Direction.shift, Slacks.afterAlighting, Slacks.beforeBoarding] at h
      linarith

namespace Traces

/-- The label at the end of a ride. -/
theorem ride_inv {r : Ride} (h : c.Traces s access time id (.ride r :: legs)) :
    ∃ label ride previous, s.arena[id]? = some label ∧ label.origin = .ride ride previous ∧
      r = c.realRide ride label.stop ∧ c.Traces s access time previous legs := by
  cases h with
  | ride hlabel horigin before => exact ⟨_, _, _, hlabel, horigin, rfl, before⟩

/-- The label at the end of a walk. -/
theorem walk_inv {stroll : Stroll} (h : c.Traces s access time id (.walk stroll :: legs)) :
    ∃ label source duration previous, s.arena[id]? = some label ∧
      label.origin = .walk source duration previous ∧
      stroll = c.realWalk source label.stop duration ∧ c.Traces s access time previous legs := by
  cases h with
  | walk hlabel horigin before => exact ⟨_, _, _, _, hlabel, horigin, rfl, before⟩

/-- A label whose trail ends with a ride, but for walks, follows that ride: there is no walk, or a
declared one between two stops. -/
theorem follows (h : c.Traces s access time id (between ++ .ride prior :: legs))
    (hwalks : ∀ leg ∈ between, leg.isRide = false) (hj : c.Justified course s)
    (hlabel : s.arena[id]? = some label) :
    ∃ (id' previous : LabelId) (ended : Label) (ride : SearchRide) (walk : Span),
      s.arena[id']? = some ended ∧ ended.origin = .ride ride previous ∧
      prior = c.realRide ride ended.stop ∧ Follows s label ride ended.stop walk ∧
      ((between = [] ∧ walk = 0 ∧ ended.stop = label.stop) ∨
        (between = [.walk (c.realWalk ended.stop label.stop walk)] ∧ ended.stop ≠ label.stop ∧
          course.network.HasWalk (match c.direction with
            | .forward => ⟨ended.stop, label.stop, walk⟩
            | .reverse => ⟨label.stop, ended.stop, walk⟩))) := by
  cases between with
  | nil =>
    obtain ⟨label', ride, previous, hlabel', horigin, hprior, -⟩ := h.ride_inv
    obtain rfl := Option.some.inj (hlabel.symm.trans hlabel')
    exact ⟨id, previous, label, ride, 0, hlabel, horigin, hprior, .direct horigin,
      .inl ⟨rfl, rfl, rfl⟩⟩
  | cons leg between =>
    cases leg with
    | ride r => exact absurd (hwalks (.ride r) (by simp)) (by simp [Leg.isRide])
    | walk stroll =>
      obtain ⟨label', source, walk, middle, hlabel', horigin, rfl, hmiddle⟩ := h.walk_inv
      obtain rfl := Option.some.inj (hlabel.symm.trans hlabel')
      obtain ⟨-, ended, hended, honBoard, rfl, hne, hwalk⟩ := (hj.label hlabel).walk_inv horigin
      cases between with
      | nil =>
        obtain ⟨ended', ride, previous, hended', hride, hprior, -⟩ := hmiddle.ride_inv
        obtain rfl := Option.some.inj (hended.symm.trans hended')
        exact ⟨middle, previous, ended, ride, walk, hended, hride, hprior,
          .walked horigin hended hride, .inr ⟨rfl, hne, hwalk⟩⟩
      | cons leg between =>
        -- a walk starts on board, and so not after another walk
        have := hmiddle.onBoard_eq hended
        rw [honBoard] at this
        exact absurd (hwalks leg (by simp)) (by simpa using this.symm)

end Traces

/-- A change of a trail as the search made it: after the ride that `ended` holds and a walk, the
trip on board is chosen at the label `before`, and left at the label `after`. -/
structure Turns (c : LabelScene) (course : Course) (s : Labels) (prior : Ride) (between : List Leg)
    (last : Ride) (p : Pattern) (t : Timetable) (id : LabelId) (ended before after : Label)
    (ride' ride : SearchRide) (walk : Span) (e : Boarded) (k : AboardCriteria) : Prop where
  pattern : course.network.patterns[ride.trip.pattern]? = some p
  timetable : course.network.timetables[ride.trip.pattern]? = some t
  board_lt : ride.boardPosition < p.length
  before_mem : s.arena[id]? = some before
  prior_eq : prior = c.realRide ride' ended.stop
  last_eq : last = c.realRide ride after.stop
  prior_timed : prior.Timed
  last_timed : last.Timed
  follows : Follows s before ride' ended.stop walk
  between_eq : (between = [] ∧ walk = 0 ∧ ended.stop = ride.boardStop) ∨
    (between = [.walk (c.realWalk ended.stop ride.boardStop walk)] ∧
      ended.stop ≠ ride.boardStop ∧
      course.network.HasWalk (match c.direction with
        | .forward => ⟨ended.stop, ride.boardStop, walk⟩
        | .reverse => ⟨ride.boardStop, ended.stop, walk⟩))
  choose : c.choose s t (c.ruleSearch p) id before ride.boardStop ride.boardPosition =
    .ok (some (e, k))
  ride_eq : ride = c.rideOf ride.alightPosition e
  boardTime : ride.boardTime = c.direction.boardingAt ride.trip ride.boardPosition
  alightTime : ride'.alightTime = c.direction.alightingAt ride'.trip ride'.alightPosition

/-- Two rides of a trail with nothing but walks between them are a change that the search made. -/
theorem Traces.turns
    (h : c.Traces s access time id (.ride last :: (between ++ .ride prior :: legs)))
    (hwalks : ∀ leg ∈ between, leg.isRide = false) (hj : c.Justified course s)
    (hnet : course.network.Sound) (hservices : c.services = course.network.servicesOn date) :
    ∃ (p : Pattern) (t : Timetable) (previous : LabelId) (ended before after : Label)
      (ride' ride : SearchRide) (walk : Span) (e : Boarded) (k : AboardCriteria),
      c.Turns course s prior between last p t previous ended before after ride' ride walk e k := by
  obtain ⟨after, ride, previous, hafter, horigin, rfl, hbefore⟩ := h.ride_inv
  obtain ⟨i, p, t, before, e, k, hp, ht, hprevious, hboardStop, -, -, -, -, hchoose, hchosen, hride,
    -⟩ := (hj.label hafter).ride_inv horigin hnet
  obtain ⟨_, _, ended, ride', walk, hended, hride', rfl, hfollows, hbetween⟩ :=
    hbefore.follows hwalks hj hprevious
  have hstop : ride.boardStop = before.stop := by rw [hride]; exact hchosen.stop
  have hpattern : ride.trip.pattern = i := by rw [hride]; exact hnet.trip_pattern ht hchosen.trip
  rw [← hstop] at hbetween hchoose
  exact ⟨p, t, previous, ended, before, after, ride', ride, walk, e, k, {
    pattern := by rw [hpattern]; exact hp
    timetable := by rw [hpattern]; exact ht
    board_lt := (Array.getElem?_eq_some_iff.mp hboardStop).1
    before_mem := hprevious
    prior_eq := rfl
    last_eq := rfl
    prior_timed := ((hj.label hended).offers hride' hnet hservices).2
    last_timed := ((hj.label hafter).offers horigin hnet hservices).2
    follows := hfollows
    between_eq := hbetween
    choose := hchoose
    ride_eq := hride
    boardTime := ((hj.label hafter).ride_times horigin hnet).1
    alightTime := ((hj.label hended).ride_times hride' hnet).2 }⟩

/-- A change that the search made is one that can be made. -/
theorem Turns.changes {p : Pattern} {t : Timetable} {ended before after : Label} {e : Boarded}
    {k : AboardCriteria}
    (h : c.Turns course s prior between last p t id ended before after ride' ride walk e k)
    (hj : c.Justified course s) (hnet : course.network.Sound)
    (hdefinitive : c.rules = none ∨ c.definitive = false) :
    c.Changes course.network prior between last := by
  have htimely := h.follows.timely hnet hj h.before_mem (hnet.timetable_sound h.pattern h.timetable)
    h.board_lt (fun search hsearch => by
      rcases hdefinitive with hrules | hdefinitive
      · rw [ruleSearch_eq_none hrules] at hsearch
        cases hsearch
      · rw [← hdefinitive]
        exact ruleSearch_eq_some hsearch) h.choose
  have hconstraint : ride.constraint = e.constraint := by rw [h.ride_eq]; rfl
  have htime : ride.boardTime = e.time := by rw [h.ride_eq]; rfl
  have hbetween := h.between_eq
  have hprior := h.prior_timed
  have hlast := h.last_timed
  rw [h.prior_eq] at hprior
  rw [h.last_eq] at hlast
  rw [h.alightTime, ← hconstraint, ← htime, h.boardTime] at htimely
  have htimely := htimely.timely hprior hlast
  rw [h.prior_eq, h.last_eq]
  unfold Changes
  unfold realRide at htimely ⊢
  unfold realWalk at hbetween
  cases hd : c.direction with
  | forward =>
    simp only [hd] at htimely hbetween ⊢
    rcases hbetween with ⟨rfl, rfl, hmeets⟩ | ⟨rfl, hne, hwalk⟩
    · exact .inl ⟨rfl, hmeets, htimely⟩
    · exact .inr ⟨_, rfl, rfl, rfl, hne, hwalk, htimely⟩
  | reverse =>
    simp only [hd] at htimely hbetween ⊢
    rcases hbetween with ⟨rfl, rfl, hmeets⟩ | ⟨rfl, hne, hwalk⟩
    · exact .inl ⟨rfl, hmeets.symm, htimely⟩
    · exact .inr ⟨_, rfl, rfl, rfl, hne.symm, hwalk, htimely⟩

/-- Two rides of a trail with nothing but walks between them are a change that can be made. -/
theorem Traces.changes
    (h : c.Traces s access time id (.ride last :: (between ++ .ride prior :: legs)))
    (hwalks : ∀ leg ∈ between, leg.isRide = false) (hj : c.Justified course s)
    (hnet : course.network.Sound) (hservices : c.services = course.network.servicesOn date)
    (hdefinitive : c.rules = none ∨ c.definitive = false) :
    c.Changes course.network prior between last := by
  obtain ⟨_, _, _, _, _, _, _, _, _, _, _, hturns⟩ := h.turns hwalks hj hnet hservices
  exact hturns.changes hj hnet hdefinitive

end LabelScene

end JourneyPlanner
