import Mathlib.Data.List.Chain
import JourneyPlanner.Itinerary.Journey
import JourneyPlanner.Proofs.Calendar.Date
import JourneyPlanner.Proofs.Itinerary.Times

/-!
# Sections of journeys

The sections of a journey tell of the parts of its itinerary one by one, with waits between them.
They follow each other without gaps. They overlap only where a part begins before the one before it
is over.

* `Section.Tells`: a section tells of a part of an itinerary.
* `Itinerary.lastEnd`: when the last of some parts is over.
* `Journey.sectionsFrom_tell`: what the sections are about.
* `Journey.sectionsFrom_isChain`: each section starts when the one before it ends.
-/

namespace JourneyPlanner

namespace Leg

def begins : Leg → Time
  | .ride r => r.departs
  | .walk stroll => stroll.startTime

def ends : Leg → Time
  | .ride r => r.arrives
  | .walk stroll => stroll.endTime

end Leg

/-! ### What sections tell -/

namespace Section

def startMoment : Section → Moment
  | .vehicle ride => ride.startMoment
  | .walk stroll => stroll.startMoment
  | .wait pause => pause.startMoment

def endMoment : Section → Moment
  | .vehicle ride => ride.endMoment
  | .walk stroll => stroll.endMoment
  | .wait pause => pause.endMoment

def isWait : Section → Bool
  | .wait _ => true
  | _ => false

/-- A section lasts from one time to another, both counted from the midnight that starts a date. -/
structure Lasts (date : Date) (start stop : Time) (part : Section) : Prop where
  start : Moment.after date start = .ok part.startMoment
  stop : Moment.after date stop = .ok part.endMoment

end Section

/-- A section for a ride has the names of its stops, route and trip, its positions and what is known
about the change to it. -/
structure VehicleSection.Tells (net : Network) (told : VehicleSection) (r : Ride) : Prop where
  source : net.stopName r.boardStop = .ok told.source
  target : net.stopName r.alightStop = .ok told.target
  route : net.routeName r.trip.route = .ok told.route
  trip : told.trip = r.trip.name
  board : told.boardPosition = r.boardPosition
  alight : told.alightPosition = r.alightPosition
  constraint : r.constraint.describe = .ok told.constraint

/-- A section for a walk has the names of its stops. -/
structure WalkSection.Tells (net : Network) (told : WalkSection) (stroll : Stroll) : Prop where
  source : net.stopName stroll.source = .ok told.source
  target : net.stopName stroll.target = .ok told.target

/-- A section tells of a part of an itinerary. -/
structure Section.Tells (net : Network) (date : Date) (part : Section) (leg : Leg) : Prop where
  lasts : part.Lasts date leg.begins leg.ends
  about : (∃ told r, part = .vehicle told ∧ leg = .ride r ∧ told.Tells net r) ∨
    ∃ told stroll, part = .walk told ∧ leg = .walk stroll ∧ told.Tells net stroll

section

variable {net : Network} {date : Date} {part next : Section} {start stop time : Time} {leg : Leg}

theorem Section.Lasts.secondsTo (h : part.Lasts date start stop) :
    part.startMoment.secondsTo part.endMoment = stop - start :=
  Moment.secondsTo_after h.start h.stop

/-- A section that lasts until a time ends when one that lasts from this time on starts. -/
theorem Section.Lasts.meets (h : part.Lasts date start time) (hnext : next.Lasts date time stop) :
    part.endMoment = next.startMoment :=
  Except.ok.inj (h.stop.symm.trans hnext.start)

theorem Section.Tells.isWait (h : part.Tells net date leg) : part.isWait = false := by
  rcases h.about with ⟨told, r, rfl, -, -⟩ | ⟨told, stroll, rfl, -, -⟩
  · rfl
  · rfl

end

namespace Itinerary

/-- When the last of some parts is over, or else a time before them. -/
def lastEnd : Time → List Leg → Time
  | time, [] => time
  | _, leg :: rest => lastEnd leg.ends rest

variable {slack : Span} {slacks : Slacks} {time : Time} {legs between before after : List Leg}
  {r : Ride} {leg : Leg} {it : Itinerary}

theorem lastEnd_append_ride :
    lastEnd time (before ++ .ride r :: between) = lastEnd r.arrives between := by
  induction before generalizing time with
  | nil => rfl
  | cons leg rest ih => exact ih

/-- Walks placed one after the other are over when the time after them comes. -/
theorem Placed.lastEnd_walks (h : Placed slack time between)
    (hwalks : ∀ leg ∈ between, leg.isRide = false) :
    lastEnd time between = time + spans between := by
  induction between generalizing time with
  | nil => simp [lastEnd]
  | cons leg rest ih =>
    cases leg with
    | ride r => cases hwalks (.ride r) List.mem_cons_self
    | walk stroll =>
      obtain ⟨-, hend⟩ := h.1 stroll rfl
      have hrest := ih h.2 fun leg hleg => hwalks leg (List.mem_cons_of_mem _ hleg)
      rw [lastEnd, Leg.ends, hend, spans_cons, ← Int.add_assoc]
      exact hrest

/-- After a ride, the slack is spent only before a walk. -/
theorem Placed.lastEnd_between (h : Placed slack (r.arrives + slack) between)
    (hwalks : ∀ leg ∈ between, leg.isRide = false) :
    lastEnd r.arrives between =
      r.arrives + if between = [] then 0 else slack + spans between := by
  cases between with
  | nil => simp [lastEnd]
  | cons leg rest =>
    rw [if_neg (List.cons_ne_nil leg rest), ← Int.add_assoc, ← h.lastEnd_walks hwalks]
    rfl

/-- A part of an itinerary begins once the one before it is over, unless both are rides, but for
walks between them. -/
theorem Arranged.begins (h : it.Arranged slacks) (hboard : 0 ≤ slacks.board)
    (halight : 0 ≤ slacks.alight) (hlegs : it.legs = before ++ leg :: after) :
    lastEnd it.access.endTime before ≤ leg.begins ∨
      ∃ front first between second, before = front ++ .ride first :: between ∧
        leg = .ride second ∧ (∀ leg ∈ between, leg.isRide = false) ∧
        lastEnd it.access.endTime before =
          first.arrives + if between = [] then 0 else slacks.alight + spans between := by
  have hplaced := h.placed
  rw [hlegs, placed_append] at hplaced
  obtain ⟨hbefore, hafter⟩ := hplaced
  have hleg : ∀ stroll, leg = .walk stroll →
      stroll.startTime = timeAfter slacks.alight it.access.endTime before :=
    fun stroll hstroll => (hafter.1 stroll hstroll).1
  rcases walks_or_lastRide before with hwalks | ⟨front, first, between, rfl, hwalks⟩
  · -- the walks before the first ride
    left
    have hend : lastEnd it.access.endTime before =
        timeAfter slacks.alight it.access.endTime before :=
      (hbefore.lastEnd_walks hwalks).trans (timeAfter_walks hwalks).symm
    rw [hend]
    cases leg with
    | walk stroll => exact (hleg stroll rfl).ge
    | ride r =>
      rw [h.ready before r after hlegs hwalks]
      exact sub_le_self _ hboard
  · obtain ⟨-, -, hbetween⟩ := placed_append.mp hbefore
    have hend := Placed.lastEnd_between (r := first) hbetween hwalks
    rw [lastEnd_append_ride]
    cases leg with
    | ride second => exact .inr ⟨front, first, between, second, rfl, rfl, hwalks, hend⟩
    | walk stroll =>
      left
      have hstart := hleg stroll rfl
      rw [timeAfter_ride 0, timeAfter_cons, timeAfter_walks hwalks] at hstart
      rw [hend, Leg.begins, hstart]
      show first.arrives + _ ≤ first.arrives + slacks.alight + spans between
      split
      case isTrue hnone =>
        subst hnone
        simpa using halight
      case isFalse => rw [Int.add_assoc]

/-- Every part of an itinerary takes its seconds. -/
theorem Arranged.ends_sub_begins (h : it.Arranged slacks) (hleg : leg ∈ it.legs) :
    leg.ends - leg.begins = leg.span := by
  cases leg with
  | ride r => rfl
  | walk stroll =>
    obtain ⟨before, after, hlegs⟩ := List.append_of_mem hleg
    have hplaced := h.placed
    rw [hlegs, placed_append] at hplaced
    obtain ⟨hstart, hend⟩ := hplaced.2.1 stroll rfl
    show stroll.endTime - stroll.startTime = stroll.duration
    rw [hend, hstart, add_sub_cancel_left]

end Itinerary

/-! ### Listing sections -/

namespace Journey

variable {net : Network} {date : Date} {here : Whereabouts} {legs : List Leg} {leg : Leg}
  {sections : List Section} {time : Time}

/-- Where time is left until a part, it is a wait. -/
theorem waitUntil_eq_ok (h : waitUntil net date here time = .ok sections) :
    (time ≤ here.time ∧ sections = []) ∨
      (here.time < time ∧ ∃ wait : Section, wait.isWait = true ∧
        wait.Lasts date here.time time ∧ sections = [wait]) := by
  unfold waitUntil at h
  split at h
  case isTrue hlt =>
    obtain ⟨start, hstart, h⟩ := bind_eq_ok.mp h
    obtain ⟨stop, hstop, h⟩ := bind_eq_ok.mp h
    obtain ⟨name, -, h⟩ := bind_eq_ok.mp h
    cases h
    exact .inr ⟨hlt, .wait ⟨start, stop, name⟩, rfl, ⟨hstart, hstop⟩, rfl⟩
  case isFalse hle =>
    cases h
    exact .inl ⟨not_lt.mp hle, rfl⟩

/-- A part of an itinerary is told by one section, after a wait if time is left until it. -/
theorem legSections_eq_ok {next : Whereabouts}
    (h : legSections net date here leg = .ok (sections, next)) :
    next.time = leg.ends ∧ ∃ part : Section, part.Tells net date leg ∧
      ((leg.begins ≤ here.time ∧ sections = [part]) ∨
        (here.time < leg.begins ∧ ∃ wait : Section, wait.isWait = true ∧
          wait.Lasts date here.time leg.begins ∧ sections = [wait, part])) := by
  -- the section comes after what is left of the time
  have hafter : ∀ {waits : List Section} {part : Section},
      waitUntil net date here leg.begins = .ok waits → sections = waits ++ [part] →
      (leg.begins ≤ here.time ∧ sections = [part]) ∨
        (here.time < leg.begins ∧ ∃ wait : Section, wait.isWait = true ∧
          wait.Lasts date here.time leg.begins ∧ sections = [wait, part]) := by
    rintro waits part hwaits rfl
    rcases waitUntil_eq_ok hwaits with ⟨hle, rfl⟩ | ⟨hlt, wait, hwait, hlasts, rfl⟩
    · exact .inl ⟨hle, rfl⟩
    · exact .inr ⟨hlt, wait, hwait, hlasts, rfl⟩
  cases leg with
  | ride r =>
    obtain ⟨boards, hboards, h⟩ := bind_eq_ok.mp h
    obtain ⟨waits, hwaits, h⟩ := bind_eq_ok.mp h
    obtain ⟨start, hstart, h⟩ := bind_eq_ok.mp h
    obtain ⟨alights, halights, h⟩ := bind_eq_ok.mp h
    obtain ⟨stop, hstop, h⟩ := bind_eq_ok.mp h
    obtain ⟨source, hsource, h⟩ := bind_eq_ok.mp h
    obtain ⟨target, htarget, h⟩ := bind_eq_ok.mp h
    obtain ⟨route, hroute, h⟩ := bind_eq_ok.mp h
    obtain ⟨constraint, hconstraint, h⟩ := bind_eq_ok.mp h
    cases h
    obtain rfl := Ride.boardTime_eq_ok hboards
    obtain rfl := Ride.alightTime_eq_ok halights
    let told : VehicleSection := ⟨start, stop, source, target, route, r.trip.name,
      r.boardPosition, r.alightPosition, constraint⟩
    refine ⟨rfl, .vehicle told, ⟨⟨hstart, hstop⟩, .inl ⟨told, r, rfl, rfl, ?_⟩⟩, hafter hwaits rfl⟩
    exact ⟨hsource, htarget, hroute, rfl, rfl, rfl, hconstraint⟩
  | walk stroll =>
    obtain ⟨waits, hwaits, h⟩ := bind_eq_ok.mp h
    obtain ⟨start, hstart, h⟩ := bind_eq_ok.mp h
    obtain ⟨stop, hstop, h⟩ := bind_eq_ok.mp h
    obtain ⟨source, hsource, h⟩ := bind_eq_ok.mp h
    obtain ⟨target, htarget, h⟩ := bind_eq_ok.mp h
    cases h
    let told : WalkSection := ⟨start, stop, source, target⟩
    refine ⟨rfl, .walk told, ⟨⟨hstart, hstop⟩, .inr ⟨told, stroll, rfl, rfl, ?_⟩⟩,
      hafter hwaits rfl⟩
    exact ⟨hsource, htarget⟩

/-- The sections of a part are waits that take time, and one that tells of it. -/
theorem legSections_tell {next : Whereabouts}
    (h : legSections net date here leg = .ok (sections, next)) :
    ∃ part : Section, part.Tells net date leg ∧ sections.filter (!·.isWait) = [part] ∧
      ∀ other ∈ sections, other = part ∨
        (other.isWait = true ∧ 0 < other.startMoment.secondsTo other.endMoment) := by
  obtain ⟨-, part, htells, hsections⟩ := legSections_eq_ok h
  refine ⟨part, htells, ?_⟩
  rcases hsections with ⟨-, rfl⟩ | ⟨hlt, wait, hwait, hlasts, rfl⟩
  · exact ⟨by simp [htells.isWait], List.forall_mem_singleton.mpr (.inl rfl)⟩
  · refine ⟨by simp [hwait, htells.isWait], ?_⟩
    rw [List.forall_mem_cons, List.forall_mem_singleton, hlasts.secondsTo]
    exact ⟨.inr ⟨hwait, sub_pos.mpr hlt⟩, .inl rfl⟩

/-- The sections tell of the parts of an itinerary, in their order, and the waits between them take
time. -/
theorem sectionsFrom_tell (h : sectionsFrom net date here legs = .ok sections) :
    List.Forall₂ (Section.Tells net date) (sections.filter (!·.isWait)) legs ∧
      ∀ part ∈ sections, (∃ leg ∈ legs, part.Tells net date leg) ∨
        (part.isWait = true ∧ 0 < part.startMoment.secondsTo part.endMoment) := by
  induction legs generalizing here sections with
  | nil =>
    cases h
    exact ⟨.nil, by simp⟩
  | cons leg rest ih =>
    obtain ⟨⟨first, next⟩, hfirst, h⟩ := bind_eq_ok.mp h
    obtain ⟨later, hlater, h⟩ := bind_eq_ok.mp h
    cases h
    obtain ⟨htold, hparts⟩ := ih hlater
    obtain ⟨part, htells, hpart, hothers⟩ := legSections_tell hfirst
    rw [List.filter_append, hpart, List.forall_mem_append]
    refine ⟨.cons htells htold, fun other hother => ?_, fun other hother => ?_⟩
    · refine (hothers other hother).imp_left ?_
      rintro rfl
      exact ⟨leg, List.mem_cons_self, htells⟩
    · refine (hparts other hother).imp_left ?_
      rintro ⟨leg', hleg', htells'⟩
      exact ⟨leg', List.mem_cons_of_mem _ hleg', htells'⟩

/-- Each section starts when the one before it ends, and the first one at once, unless it tells of a
part that may begin before the one before it is over. -/
theorem sectionsFrom_isChain {early : Leg → Prop}
    (h : sectionsFrom net date here legs = .ok sections)
    (hbegins : ∀ before leg after, legs = before ++ leg :: after →
      Itinerary.lastEnd here.time before ≤ leg.begins ∨ early leg) :
    (sections.IsChain fun part next => part.endMoment = next.startMoment ∨
      ∃ leg, early leg ∧ next.Tells net date leg) ∧
    ∀ first ∈ sections.head?, Moment.after date here.time = .ok first.startMoment ∨
      ∃ leg, early leg ∧ first.Tells net date leg := by
  induction legs generalizing here sections with
  | nil =>
    cases h
    simp
  | cons leg rest ih =>
    obtain ⟨⟨first, next⟩, hfirst, h⟩ := bind_eq_ok.mp h
    obtain ⟨later, hlater, h⟩ := bind_eq_ok.mp h
    cases h
    obtain ⟨hnext, part, htells, hfirst⟩ := legSections_eq_ok hfirst
    obtain ⟨hchain, hhead⟩ := ih hlater fun before leg' after hrest => by
      rw [hnext]
      exact hbegins (leg :: before) leg' after (congrArg (leg :: ·) hrest)
    -- the sections after the part start when it is over
    have hmeets : ∀ second ∈ later.head?, part.endMoment = second.startMoment ∨
        ∃ leg, early leg ∧ second.Tells net date leg := by
      intro second hsecond
      refine (hhead second hsecond).imp_left fun hstart => ?_
      rw [hnext] at hstart
      exact Except.ok.inj (htells.lasts.stop.symm.trans hstart)
    have hchain := List.isChain_cons.mpr ⟨hmeets, hchain⟩
    rcases hfirst with ⟨hle, rfl⟩ | ⟨-, wait, -, hlasts, rfl⟩
    · refine ⟨hchain, ?_⟩
      rintro _ ⟨⟩
      rcases hbegins [] leg rest rfl with hge | hearly
      · have hsame : here.time = leg.begins := le_antisymm hge hle
        exact .inl (hsame ▸ htells.lasts.start)
      · exact .inr ⟨leg, hearly, htells⟩
    · refine ⟨List.isChain_cons_cons.mpr ⟨.inl (hlasts.meets htells.lasts), hchain⟩, ?_⟩
      rintro _ ⟨⟩
      exact .inl hlasts.start

end Journey

end JourneyPlanner
