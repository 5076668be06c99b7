import JourneyPlanner.Search.Route
import JourneyPlanner.Proofs.Search.Origins

/-!
# Trails

The labels from an arrival back to the leg with which the search started. Every part of a trail is
itself the trail of a label, so that what is known of a label and the one it comes from is known of
any two parts that follow each other.

* `LabelScene.Traces`: the trail of a label, one label after the other.
* `LabelScene.Assembles`: what the itinerary of a finish is put together from.
* `LabelScene.Traces.suffix`: a trail without its first parts is the trail of a label.
* `LabelScene.Traces.exists_origin`: a trail starts with the label of a leg.
* `LabelScene.Follows`: a label follows a ride, maybe by a walk.
* `LabelScene.Follows.timely`: how late a trip is boarded after the ride before it.
-/

namespace JourneyPlanner

namespace LabelScene

/-- The parts from the leg with which the search started to a label, the last one of the search in
front. -/
inductive Traces (c : LabelScene) (s : Labels) (leg : Connector) (time : Time) :
    LabelId → List Leg → Prop
  | access {id : LabelId} {label : Label} (hlabel : s.arena[id]? = some label)
    (horigin : label.origin = .access leg) (htime : label.time = time) : Traces c s leg time id []
  | ride {id previous : LabelId} {label : Label} {ride : SearchRide} {legs : List Leg}
    (hlabel : s.arena[id]? = some label) (horigin : label.origin = .ride ride previous)
    (before : Traces c s leg time previous legs) :
    Traces c s leg time id (.ride (c.realRide ride label.stop) :: legs)
  | walk {id previous : LabelId} {label : Label} {source : StopId} {duration : Span}
    {legs : List Leg} (hlabel : s.arena[id]? = some label)
    (horigin : label.origin = .walk source duration previous)
    (before : Traces c s leg time previous legs) :
    Traces c s leg time id (.walk (c.realWalk source label.stop duration) :: legs)

variable {c : LabelScene} {course : Course} {s : Labels} {maxRounds : Nat} {id previous : LabelId}
  {label : Label} {leg : Connector} {time : Time} {legs : List Leg} {ride : SearchRide}

theorem label_eq_ok : s.label id = .ok label ↔ s.arena[id]? = some label := fetch_eq_ok

/-- A trail that is found leads from the label back to a leg of the request. -/
theorem traces_of_trail {trail : Trail} (h : c.trail? s id = .ok (some trail)) :
    c.Traces s trail.access trail.accessTime id trail.legs := by
  induction id using Nat.strong_induction_on generalizing trail with
  | h id ih =>
    rw [trail?] at h
    cases hlabel : s.label id with
    | error fault =>
      rw [hlabel] at h
      cases h
    | ok label =>
      have harena := label_eq_ok.mp hlabel
      simp only [hlabel, bind, Except.bind] at h
      -- a trail that goes on is that of the label before with one more part
      have hnext : ∀ {previous : LabelId} {part : Leg},
          (if previous < id then (do
            let before ← c.trail? s previous
            return before.map fun trail => { trail with legs := part :: trail.legs } : Checked _)
          else return none) = .ok (some trail) →
          ∃ rest, trail.legs = part :: rest ∧
            c.Traces s trail.access trail.accessTime previous rest := by
        intro previous part hpart
        split at hpart
        case isFalse => cases hpart
        case isTrue hlt =>
          cases hbefore : c.trail? s previous with
          | error fault =>
            rw [hbefore] at hpart
            cases hpart
          | ok found =>
            rw [hbefore] at hpart
            cases found with
            | none => cases hpart
            | some before =>
              cases hpart
              exact ⟨before.legs, rfl, ih previous hlt hbefore⟩
      cases horigin : label.origin with
      | access leg =>
        rw [horigin] at h
        cases h
        exact .access harena horigin rfl
      | ride ride previous =>
        rw [horigin] at h
        obtain ⟨rest, hlegs, hbefore⟩ := hnext h
        rw [hlegs]
        exact .ride harena horigin hbefore
      | walk source duration previous =>
        rw [horigin] at h
        obtain ⟨rest, hlegs, hbefore⟩ := hnext h
        rw [hlegs]
        exact .walk harena horigin hbefore

/-- An itinerary is put together from the trail of a label, in the order of the day, and the leg of
the finish. A search that goes back in time finds the last part of the day first, and knows the
constraint of a boarding only from the ride before it. -/
inductive Assembles (c : LabelScene) (s : Labels) (finish : Finish) (it : Itinerary) : Prop
  | forward {access : Connector} {time : Time} {legs : List Leg} (hd : c.direction = .forward)
    (htraces : c.Traces s access time finish.label legs)
    (hnew : Itinerary.new access legs.reverse finish.leg c.slacks c.tariff
      (time - access.duration) = .ok it) : Assembles c s finish it
  | reverse {egress : Connector} {time : Time} {legs : List Leg} {last : Label}
    (hd : c.direction = .reverse) (htraces : c.Traces s egress time finish.label legs)
    (hlast : s.arena[finish.label]? = some last)
    (hnew : Itinerary.new finish.leg (delayConstraints .regular legs) egress c.slacks c.tariff
      (last.time - finish.leg.duration) = .ok it) : Assembles c s finish it

theorem assembles_of_itinerary {finish : Finish} {it : Itinerary}
    (h : c.itinerary? s finish = .ok (some it)) : c.Assembles s finish it := by
  obtain ⟨trail?, htrail, h⟩ := bind_eq_ok.mp h
  cases trail? with
  | none => cases h
  | some trail =>
    have htraces := traces_of_trail htrail
    cases hd : c.direction with
    | forward =>
      simp only [hd] at h
      obtain ⟨departure, hdeparture, h⟩ := bind_eq_ok.mp h
      obtain rfl := (word_eq_ok.mp hdeparture).2
      exact .forward hd htraces (some_map_eq_ok h)
    | reverse =>
      simp only [hd] at h
      obtain ⟨last, hlast, h⟩ := bind_eq_ok.mp h
      obtain ⟨departure, hdeparture, h⟩ := bind_eq_ok.mp h
      obtain rfl := (word_eq_ok.mp hdeparture).2
      exact .reverse hd htraces (label_eq_ok.mp hlast) (some_map_eq_ok h)

namespace Traces

/-- A trail without its first parts is the trail of a label. -/
theorem suffix {parts : List Leg} (h : c.Traces s leg time id (parts ++ legs)) :
    ∃ id', c.Traces s leg time id' legs := by
  induction parts generalizing id with
  | nil => exact ⟨id, h⟩
  | cons part parts ih =>
    cases h with
    | ride _ _ before | walk _ _ before => exact ih before

/-- A trail starts with the label of a leg. -/
theorem exists_origin (h : c.Traces s leg time id legs) :
    ∃ (id' : LabelId) (label : Label), s.arena[id']? = some label ∧ label.origin = .access leg ∧
      label.time = time := by
  induction h with
  | access hlabel horigin htime => exact ⟨_, _, hlabel, horigin, htime⟩
  | ride _ _ _ ih | walk _ _ _ ih => exact ih

end Traces

/-! ### Rides -/

/-- What is known of a label at the end of a ride. -/
theorem Derived.ride_inv (h : c.Derived course s label)
    (horigin : label.origin = .ride ride previous) (hnet : course.network.Sound) :
    ∃ (i : Nat) (p : Pattern) (t : Timetable) (before : Label) (e : Boarded) (k : AboardCriteria),
      course.network.patterns[i]? = some p ∧
      course.network.timetables[i]? = some t ∧ s.arena[previous]? = some before ∧
      p.stops[ride.boardPosition]? = some before.stop ∧
      c.direction.canBoard p ride.boardPosition = .ok true ∧
      p.stops[ride.alightPosition]? = some label.stop ∧
      c.direction.canAlight p ride.alightPosition = .ok true ∧
      c.direction.precedes ride.boardPosition ride.alightPosition = true ∧
      c.choose s t (c.ruleSearch p) previous before before.stop ride.boardPosition =
        .ok (some (e, k)) ∧
      c.Chosen t previous before.stop ride.boardPosition e k ∧
      ride = c.rideOf ride.alightPosition e ∧
      label = c.alighted label.stop ride.alightPosition (before.round + 1) before.iteration e := by
  cases h with
  | access | walk => cases horigin
  | @ride i boardPosition position p t id before stop e k hp ht hbefore hboardStop hboards hstop
      halights hprecedes hchoose =>
    have hposition := (Array.getElem?_eq_some_iff.mp hboardStop).1
    have hchosen := chosen_of_choose (hnet.timetable_sound hp ht) hposition hchoose
    obtain ⟨hride, hprevious⟩ := Origin.ride.inj horigin
    subst hride
    rw [hchosen.previous] at hprevious
    subst hprevious
    rw [← hchosen.position] at hboardStop hboards hprecedes hchoose
    refine ⟨i, p, t, before, e, k, hp, ht, hbefore, hboardStop, hboards, hstop, halights, hprecedes,
      hchoose, ?_, rfl, rfl⟩
    have hposition : (c.rideOf position e).boardPosition = boardPosition := hchosen.position
    rw [hposition]
    exact hchosen

/-! ### Changes -/

/-- A label follows a ride that ended at a stop, with a walk of some seconds between. -/
inductive Follows (s : Labels) (label : Label) (ride : SearchRide) : StopId → Span → Prop
  | direct {previous : LabelId} (horigin : label.origin = .ride ride previous) :
    Follows s label ride label.stop 0
  | walked {source : StopId} {duration : Span} {previous previous' : LabelId} {before : Label}
    (horigin : label.origin = .walk source duration previous)
    (hbefore : s.arena[previous]? = some before)
    (hride : before.origin = .ride ride previous') :
    Follows s label ride before.stop duration

namespace Follows

variable {stop : StopId} {walk : Span}

theorem lastRide_eq (h : Follows s label ride stop walk) :
    s.lastRide label = .ok (some (ride, stop)) := by
  unfold Labels.lastRide
  cases h with
  | direct horigin => rw [horigin]; rfl
  | walked horigin hbefore hride =>
    simp only [horigin, Labels.label, fetch_of_getElem? hbefore, bind, Except.bind, hride]
    rfl

theorem changeAt_walk (h : Follows s label ride stop walk) {position : Nat} :
    (c.changeAt label ride stop position).walk = walk := by
  cases h with
  | direct horigin => simp only [changeAt, horigin]
  | walked horigin => simp only [changeAt, horigin]

/-- The label comes after the slack of the ride and the walk. -/
theorem time_eq (h : Follows s label ride stop walk) (hnet : course.network.Sound)
    (hjustified : c.Justified course s) (hlabel : s.arena[id]? = some label) :
    label.time = c.direction.shift ride.alightTime
      (c.slacks.afterAlighting c.direction + walk) ∧ 1 ≤ label.round := by
  have hended : ∀ {id previous : LabelId} {label : Label}, s.arena[id]? = some label →
      label.origin = .ride ride previous → label.time = c.direction.shift ride.alightTime
        (c.slacks.afterAlighting c.direction) ∧ 1 ≤ label.round := by
    intro id previous label hlabel horigin
    obtain ⟨i, p, t, before, e, k, -, -, -, -, -, -, -, -, -, -, hride, heq⟩ :=
      (hjustified.label hlabel).ride_inv horigin hnet
    rw [heq, hride]
    exact ⟨rfl, Nat.succ_le_succ (Nat.zero_le _)⟩
  cases h with
  | direct horigin =>
    rw [Int.add_zero]
    exact hended hlabel horigin
  | walked horigin hbefore hride =>
    cases hjustified.label hlabel with
    | access | ride => cases horigin
    | walk hbefore' =>
      obtain ⟨-, rfl, rfl⟩ := Origin.walk.inj horigin
      obtain rfl := Option.some.inj (hbefore.symm.trans hbefore')
      obtain ⟨htime, hround⟩ := hended hbefore hride
      refine ⟨?_, hround⟩
      rw [LabelScene.walked, htime, Direction.shift_shift]

/-- A trip is boarded regularly after the walk and all slacks. -/
theorem earliest_eq (h : Follows s label ride stop walk) (hnet : course.network.Sound)
    (hjustified : c.Justified course s) (hlabel : s.arena[id]? = some label) :
    c.earliest label = c.direction.shift ride.alightTime
      (c.slacks.afterAlighting c.direction + walk + c.slacks.transfer +
        c.slacks.beforeBoarding c.direction) := by
  obtain ⟨htime, hround⟩ := h.time_eq hnet hjustified hlabel
  rw [earliest, htime, if_neg (by omega), Direction.shift_shift]
  congr 1
  linarith

end Follows

/-- A trip is boarded late enough after a ride: the walk suffices before a trip that waits or in
which the traveller stays seated, and all slacks count otherwise. -/
def TimelyAfter (c : LabelScene) (rideEnd : Time) (walk : Span) (boardTime : Time)
    (constraint : Constraint) : Prop :=
  if constraint.isFacilitated then
    c.direction.NoLater (c.direction.shift rideEnd walk) boardTime
  else
    c.direction.NoLater (c.direction.shift rideEnd (c.slacks.afterAlighting c.direction + walk +
      c.slacks.transfer + c.slacks.beforeBoarding c.direction)) boardTime

/-- A trip that is boarded regularly is met in time. -/
theorem noLater_of_bestTrip {t : Timetable} {length position rank : Nat} {trip : Trip}
    {d : Direction} {accepts : Trip → Bool} (ht : t.Sound length) (hposition : position < length)
    (hbest : t.bestTrip d accepts time position = .ok (some (rank, trip))) :
    d.NoLater time (d.boardingAt trip position) := by
  obtain ⟨⟨found, hfound, -, hinTime, -⟩, htrip⟩ :=
    (ht.yields_bestTrip hposition d accepts time).of_ok hbest
  obtain rfl := Option.some.inj (hfound.symm.trans (htrip rank trip rfl))
  exact hinTime

/-- The trip that is chosen after a ride is boarded late enough. -/
theorem Follows.timely {stop : StopId} {walk : Span} {t : Timetable} {rules : Option RuleSearch}
    {boardStop : StopId} {position length : Nat} {e : Boarded} {k : AboardCriteria}
    (h : Follows s label ride stop walk) (hnet : course.network.Sound)
    (hjustified : c.Justified course s) (hlabel : s.arena[id]? = some label)
    (ht : t.Sound length) (hposition : position < length)
    (hsearch : ∀ search, rules = some search → search.direction = c.direction ∧
      search.definitive = false)
    (hchoose : c.choose s t rules id label boardStop position = .ok (some (e, k))) :
    c.TimelyAfter ride.alightTime walk e.time e.constraint := by
  rw [TimelyAfter, ← h.earliest_eq hnet hjustified hlabel]
  rcases choose_eq_some hchoose with
    ⟨found, rideEnd, hruled, hallowed, rfl, -⟩ | ⟨-, rank, trip, hbest, rfl, -⟩
  · obtain ⟨search, ride', rideStop, hrules, hlast, hfind, -⟩ := ruled_eq_some hruled
    obtain ⟨rfl, rfl⟩ := Prod.mk.inj (Option.some.inj
      (Except.ok.inj (h.lastRide_eq.symm.trans hlast)))
    obtain ⟨hdirection, hdefinitive⟩ := hsearch search hrules
    have hsettles := Yields.of_ok (RuleSearch.yields_find ht hposition) hfind found rfl
    have htimely := hsettles.timely
    have htime : found.time = c.direction.boardingAt found.trip position := by
      rw [hsettles.time, hdirection]
      rfl
    rw [htime] at htimely
    unfold RuleSearch.Timely at htimely
    rw [hdirection] at htimely
    cases hconstraint : found.constraint with
    | regular =>
      rw [hconstraint] at htimely
      exact htimely
    | guaranteed | staySeated =>
      simp only [hconstraint, h.changeAt_walk] at htimely
      exact htimely
    | minTime least =>
      rw [hconstraint] at htimely
      exact htimely.2 hdefinitive
    | notAllowed =>
      rw [hconstraint] at hallowed
      cases hallowed
  · exact noLater_of_bestTrip ht hposition hbest

end LabelScene

end JourneyPlanner
