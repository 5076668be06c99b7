import Mathlib.Data.List.Forall2
import Mathlib.Data.List.Perm.Basic
import Mathlib.Data.List.Nodup
import JourneyPlanner.Proofs.Network.Built

/-!
# Declared trips

Building a network loses no declared trip, holds none twice and mixes none with another one. A trip
is offered to every timetable of its kind in turn, may be refused by each, and shifts those after it
where it is accepted; its pattern and its rank are known only at the end.

* `Draft.Declared`: what sequences of declarations make.
* `Placement.Holds`: the timetables hold the trips that were placed, each once and with its kind.
* `Draft.HeldAs`: a trip of a network is as it was declared, and is found by its name and numbers.
* `build_holds`: the trips, the order of the timetables and the visits of a network that was built.
-/

namespace JourneyPlanner

def heldTrips (timetables : Array Timetable) : List Trip :=
  timetables.toList.flatMap fun t => t.trips.toList

def Network.allTrips (net : Network) : List Trip := heldTrips net.timetables

namespace Draft

/-! ### Sequences of declarations -/

/-- A draft that a sequence of declarations makes. -/
inductive Declared : Draft → Prop
  | new (date : Date) : Declared (Draft.new date)
  | calendar {draft : Draft} (h : Declared draft) (name : String) (dates : List Date) :
      Declared (draft.calendar name dates)
  | station {draft : Draft} (h : Declared draft) (name : String) (stops : List String) :
      Declared (draft.station name stops)
  | route {draft : Draft} (h : Declared draft) (name : String) : Declared (draft.route name).1
  | reluctance {draft : Draft} (h : Declared draft) (route : RouteId) (reluctance : Nat) :
      Declared (draft.reluctance route reluctance)
  | trip {draft draft' : Draft} {route : RouteId} {name : String} {calendar : Option String}
      {lines : List TripLine} (h : Declared draft)
      (htrip : draft.trip route name calendar lines = .ok draft') : Declared draft'
  | walk {draft draft' : Draft} {source target : String} {duration : TimeEntry}
      (h : Declared draft) (hwalk : draft.walk source target duration = .ok draft') :
      Declared draft'
  | rule {draft : Draft} (h : Declared draft) (source target : EndpointName)
      (constraint : Constraint) : Declared (draft.rule source target constraint)

/-- No two trips have one name, and no two calendars. -/
structure Distinct (draft : Draft) : Prop where
  trips : (draft.trips.toList.map (·.name)).Nodup
  calendars : (draft.calendars.map (·.name)).Nodup

variable {draft : Draft} {net : Network}

theorem Distinct.calendar (h : draft.Distinct) (name : String) (dates : List Date) :
    (draft.calendar name dates).Distinct := by
  refine ⟨h.trips, ?_⟩
  unfold Draft.calendar
  dsimp only
  split
  · have hnames : (draft.calendars.map fun service =>
        if service.name = name then (⟨name, dates⟩ : Service) else service).map (·.name) =
          draft.calendars.map (·.name) := by
      rw [List.map_map]
      refine List.map_congr_left fun service _ => ?_
      dsimp only [Function.comp]
      split
      · exact (‹service.name = name›).symm
      · rfl
    rw [hnames]
    exact h.calendars
  · rename_i hnew
    rw [List.map_append]
    refine h.calendars.append (List.nodup_singleton _) ?_
    intro other hother hname
    obtain ⟨service, hservice, rfl⟩ := List.mem_map.mp hother
    refine hnew (List.any_eq_true.mpr ⟨service, hservice, ?_⟩)
    simpa using hname

/-- A trip whose name is taken is refused, so the names of trips stay distinct. -/
theorem Distinct.trip {draft' : Draft} {route : RouteId} {name : String}
    {calendar : Option String} {lines : List TripLine} (h : draft.Distinct)
    (htrip : draft.trip route name calendar lines = .ok draft') : draft'.Distinct := by
  unfold Draft.trip at htrip
  split at htrip
  · cases htrip
  · rename_i hnew
    obtain ⟨calls, -, htrip⟩ := bind_eq_ok.mp htrip
    obtain rfl := Except.ok.inj htrip
    refine ⟨?_, h.calendars⟩
    rw [Array.toList_push, List.map_append]
    refine h.trips.append (List.nodup_singleton _) ?_
    intro other hother hname
    obtain ⟨declared, hdeclared, rfl⟩ := List.mem_map.mp hother
    obtain ⟨i, hi, hget⟩ := Array.mem_iff_getElem.mp (Array.mem_toList_iff.mp hdeclared)
    refine hnew (Array.any_eq_true.mpr ⟨i, hi, ?_⟩)
    simpa [hget] using hname

/-- Declarations keep the names of trips and calendars apart. -/
theorem Declared.distinct (h : draft.Declared) : draft.Distinct := by
  induction h with
  | new date => exact ⟨List.nodup_nil, List.nodup_singleton _⟩
  | calendar _ name dates ih => exact ih.calendar name dates
  | station _ name stops ih => exact ⟨ih.trips, ih.calendars⟩
  | route _ name ih =>
    unfold Draft.route
    split
    · exact ih
    · exact ⟨ih.trips, ih.calendars⟩
  | reluctance _ route reluctance ih => exact ⟨ih.trips, ih.calendars⟩
  | trip _ htrip ih => exact ih.trip htrip
  | walk _ hwalk ih =>
    obtain ⟨span, -, hwalk⟩ := bind_eq_ok.mp hwalk
    obtain rfl := Except.ok.inj hwalk
    exact ⟨ih.trips, ih.calendars⟩
  | rule _ source target constraint ih => exact ⟨ih.trips, ih.calendars⟩

/-! ### Insertion -/

/-- Every trip fits a timetable without trips. -/
theorem exists_insert?_empty (pattern length : Nat) (trip : Trip) :
    ∃ t, (Timetable.empty pattern length).insert? trip = some t := by
  have hcolumn : (Timetable.empty pattern length).departures.getD 0 #[] = #[] := by
    by_cases hlength : 0 < length
    · simp [Timetable.empty, hlength]
    · simp [Timetable.empty, hlength]
  have hrank : (Timetable.empty pattern length).insertionRank? trip = some 0 := by
    rw [Timetable.insertionRank?, hcolumn]
    have hnone : ∀ holds, countLeading #[] holds = 0 := fun holds =>
      Nat.le_zero.mp (countLeading_le_size _ _)
    simp [hnone, Timetable.empty]
  exact ⟨_, by rw [Timetable.insert?, hrank]; rfl⟩

theorem flatMap_set_perm {α β : Type} {f : α → List β} {xs : List α} {i : Nat} {a a' : α} {b : β}
    (h : xs[i]? = some a) (ha : (f a').Perm (b :: f a)) :
    ((xs.set i a').flatMap f).Perm (b :: xs.flatMap f) := by
  induction xs generalizing i with
  | nil => cases h
  | cons x xs ih =>
    cases i with
    | zero =>
      obtain rfl := Option.some.inj h
      rw [List.set_cons_zero, List.flatMap_cons, List.flatMap_cons, ← List.cons_append]
      exact ha.append_right _
    | succ i =>
      rw [List.set_cons_succ, List.flatMap_cons, List.flatMap_cons]
      exact ((ih h).append_left _).trans List.perm_middle

/-! ### Placing trips -/

/-- The pattern of a declared trip. -/
def kindOf (draft : Draft) (pattern : PatternId) (trip : TripDraft) : Pattern :=
  ⟨pattern, trip.route, draft.callStops trip, callFlows trip⟩

/-- The timetables hold the trips that were placed, each once and in a pattern of its kind. -/
structure Placement.Holds (draft : Draft) (done : List (TripDraft × TripId))
    (placement : Placement) : Prop where
  known : ∀ entry ∈ done, ∃ service,
    draft.calendars.findIdx? (·.name == entry.1.calendar) = some service
  trips : (heldTrips placement.timetables).Perm (done.map draft.scheduled)
  kind : ∀ {i : Nat} {p : Pattern} {t : Timetable}, placement.patterns[i]? = some p →
    placement.timetables[i]? = some t → ∀ trip ∈ t.trips, ∃ entry ∈ done,
      trip = draft.scheduled entry ∧ p = draft.kindOf i entry.1

variable {placement : Placement} {done : List (TripDraft × TripId)} {entry : TripDraft × TripId}

/-- A trip that a timetable takes is held there, and all others stay where they are. -/
theorem Placement.Holds.insert (h : placement.Holds draft done)
    (hsound : placement.Sound draft.routes draft.stopNames.size)
    (hknown : ∃ service, draft.calendars.findIdx? (·.name == entry.1.calendar) = some service)
    {i : Nat} {p : Pattern} {t t' : Timetable} (hp : placement.patterns[i]? = some p)
    (ht : placement.timetables[i]? = some t)
    (hbelongs : belongs entry.1.route (draft.callStops entry.1) (callFlows entry.1) p = true)
    (hinsert : t.insert? (draft.scheduled entry) = some t') :
    Placement.Holds draft (done ++ [entry])
      { placement with timetables := placement.timetables.setIfInBounds i t' } := by
  have hkind : p = draft.kindOf i entry.1 := by
    have hid := hsound.pattern_id hp
    simp only [belongs, Bool.and_eq_true, beq_iff_eq] at hbelongs
    obtain ⟨⟨hroute, hstops⟩, hflows⟩ := hbelongs
    obtain ⟨id, route, stops, flows⟩ := p
    dsimp only at hid hroute hstops hflows
    rw [hid, hroute, hstops, hflows, kindOf]
  constructor
  case known =>
    intro other hother
    rcases List.mem_append.mp hother with hother | hother
    · exact h.known other hother
    · obtain rfl := List.mem_singleton.mp hother
      exact hknown
  case trips =>
    have hget : placement.timetables.toList[i]? = some t := by rwa [Array.getElem?_toList]
    have hperm := Timetable.insert?_perm (hsound.timetable_sound hp ht) hinsert
    rw [heldTrips, Array.toList_setIfInBounds, List.map_append]
    refine (flatMap_set_perm (f := fun t : Timetable => t.trips.toList) hget hperm).trans ?_
    exact (h.trips.cons _).trans (List.perm_append_singleton _ _).symm
  case kind =>
    intro j q u hq hu trip htrip
    have hold : ∀ {u : Timetable}, placement.timetables[j]? = some u → trip ∈ u.trips →
        ∃ other ∈ done ++ [entry], trip = draft.scheduled other ∧ q = draft.kindOf j other.1 := by
      intro u hu htrip
      obtain ⟨other, hother, hkinds⟩ := h.kind hq hu trip htrip
      exact ⟨other, List.mem_append_left _ hother, hkinds⟩
    rw [Array.getElem?_setIfInBounds] at hu
    split at hu
    · rename_i hij
      subst hij
      split at hu
      · obtain rfl := Option.some.inj hu
        rcases mem_of_insert? hinsert htrip with rfl | htrip
        · refine ⟨entry, by simp, rfl, ?_⟩
          rw [← hkind]
          exact Option.some.inj (hq.symm.trans hp)
        · exact hold ht htrip
      · cases hu
    · exact hold hu htrip

/-- A trip that no timetable takes opens a new one. -/
theorem Placement.Holds.push (h : placement.Holds draft done)
    (hsound : placement.Sound draft.routes draft.stopNames.size)
    (hknown : ∃ service, draft.calendars.findIdx? (·.name == entry.1.calendar) = some service) :
    let opened := Timetable.empty placement.patterns.size (draft.callStops entry.1).size
    Placement.Holds draft (done ++ [entry])
      { patterns := placement.patterns.push (draft.kindOf placement.patterns.size entry.1)
        timetables := placement.timetables.push
          ((opened.insert? (draft.scheduled entry)).getD opened) } := by
  intro opened
  obtain ⟨t', hinsert⟩ := exists_insert?_empty placement.patterns.size
    (draft.callStops entry.1).size (draft.scheduled entry)
  have hperm := Timetable.insert?_perm (Timetable.empty_sound _ _) hinsert
  rw [hinsert, Option.getD_some]
  constructor
  case known =>
    intro other hother
    rcases List.mem_append.mp hother with hother | hother
    · exact h.known other hother
    · obtain rfl := List.mem_singleton.mp hother
      exact hknown
  case trips =>
    rw [heldTrips, Array.toList_push, List.flatMap_append, List.map_append]
    refine h.trips.append ?_
    simpa [Timetable.empty] using hperm
  case kind =>
    intro i p t hp ht trip htrip
    rw [Array.getElem?_push] at hp ht
    rw [hsound.timetables_size] at ht
    split at hp
    · rename_i hi
      rw [if_pos hi] at ht
      obtain rfl := Option.some.inj hp
      obtain rfl := Option.some.inj ht
      refine ⟨entry, by simp, ?_, by rw [hi]⟩
      simpa [Timetable.empty] using hperm.mem_iff.mp (Array.mem_toList_iff.mpr htrip)
    · rename_i hi
      rw [if_neg hi] at ht
      obtain ⟨other, hother, hkinds⟩ := h.kind hp ht trip htrip
      exact ⟨other, List.mem_append_left _ hother, hkinds⟩

/-- Placing a trip holds it besides those placed before. -/
theorem Placement.Holds.placeDraft (h : placement.Holds draft done)
    (hsound : placement.Sound draft.routes draft.stopNames.size) {placement' : Placement}
    (hplace : draft.placeDraft draft.stopNames placement entry = .ok placement') :
    placement'.Holds draft (done ++ [entry]) := by
  obtain ⟨hknown, rfl⟩ := placeDraft_eq_ok hplace
  rcases place_cases hsound.pattern_id with ⟨i, p, t, t', hp, ht, hbelongs, hinsert, heq⟩ | heq
  · rw [heq]
    exact h.insert hsound hknown hp ht hbelongs hinsert
  · rw [heq]
    exact h.push hsound hknown

/-- The trips of a draft are placed one after the other. -/
theorem placement_holds
    (h : draft.trips.toList.zipIdx.foldlM (draft.placeDraft draft.stopNames) ⟨#[], #[]⟩ =
      .ok placement) :
    placement.Holds draft draft.trips.toList.zipIdx := by
  suffices ∀ rest done before, draft.trips.toList.zipIdx = done ++ rest →
      before.Sound draft.routes draft.stopNames.size → before.Holds draft done →
      rest.foldlM (draft.placeDraft draft.stopNames) before = .ok placement →
      placement.Holds draft draft.trips.toList.zipIdx by
    refine this _ [] _ rfl (placement_sound_empty _ _) ?_ h
    constructor <;> simp [heldTrips]
  intro rest
  induction rest with
  | nil =>
    intro done before hdone _ hholds hfold
    obtain rfl := Except.ok.inj hfold
    rw [hdone, List.append_nil]
    exact hholds
  | cons entry rest ih =>
    intro done before hdone hsound hholds hfold
    rw [List.foldlM_cons] at hfold
    obtain ⟨after, hplace, hrest⟩ := bind_eq_ok.mp hfold
    have htrip : entry.1 ∈ draft.trips := by
      have hentry : entry ∈ draft.trips.toList.zipIdx := by simp [hdone]
      exact Array.mem_toList_iff.mp
        (List.mem_of_getElem? (List.mem_zipIdx_iff_getElem?.mp hentry))
    refine ih (done ++ [entry]) after ?_ (placeDraft_sound hsound htrip hplace)
      (hholds.placeDraft hsound hplace) hrest
    rw [hdone, List.append_assoc, List.singleton_append]

/-! ### Numbers -/

/-- A trip of a network is a placed one that knows its pattern and its rank. -/
def Numbered (timetables : Array Timetable) (placed trip : Trip) : Prop :=
  ∃ i rank t, timetables[i]? = some t ∧ t.trips[rank]? = some placed ∧
    trip = { placed with pattern := i, rank }

theorem forall₂_mapIdx {α β : Type} {R : α → β → Prop} {xs : Array α} {f : Nat → α → β}
    (h : ∀ i x, xs[i]? = some x → R x (f i x)) : List.Forall₂ R xs.toList (xs.mapIdx f).toList := by
  refine List.forall₂_iff_get.mpr ⟨by simp, ?_⟩
  intro i hi hi'
  have hlt : i < xs.size := by simpa using hi
  have := h i xs[i] (Array.getElem?_eq_getElem hlt)
  simpa using this

/-- Numbering changes nothing of the trips but their numbers. -/
theorem numbered (timetables : Array Timetable) :
    List.Forall₂ (Numbered timetables) (heldTrips timetables)
      (heldTrips (timetables.mapIdx fun pattern t => t.number pattern)) := by
  have htables : List.Forall₂ (fun t t' => ∃ i, timetables[i]? = some t ∧ t' = t.number i)
      timetables.toList (timetables.mapIdx fun pattern t => t.number pattern).toList :=
    forall₂_mapIdx fun i t ht => ⟨i, ht, rfl⟩
  refine List.rel_flatMap htables ?_
  rintro t _ ⟨i, ht, rfl⟩
  exact forall₂_mapIdx fun rank trip htrip => ⟨i, rank, t, ht, htrip, rfl⟩

/-! ### Looking up -/

theorem stop?_eq {name : String} (hstops : net.stops = draft.stopTable draft.stopNames)
    (hname : name ∈ draft.stopNames) :
    net.stop? name = some (stopNumber draft.stopNames name) := by
  have hfind : net.stop? name = draft.stopNames.findIdx? (· == name) := by
    rw [Network.stop?, hstops, stopTable, Array.findIdx?_map]
    rfl
  rw [hfind, stopNumber]
  cases hfound : draft.stopNames.findIdx? (· == name) with
  | some stop => rfl
  | none =>
    have := Array.findIdx?_eq_none_iff.mp hfound name hname
    simp at this

/-- A trip is found by its name when no other trip has it. -/
theorem trip?_eq {trip : Trip} (hnames : (net.allTrips.map (·.name)).Nodup)
    (htrip : trip ∈ net.allTrips) : net.trip? trip.name = some trip := by
  have hfind : net.trip? trip.name = net.allTrips.find? (·.name == trip.name) := by
    rw [Network.trip?, Network.allTrips, heldTrips, List.find?_flatMap]
    simp only [Array.find?_toList]
  rw [hfind]
  cases hfound : net.allTrips.find? (·.name == trip.name) with
  | none =>
    have := List.find?_eq_none.mp hfound trip htrip
    simp at this
  | some other =>
    have hother := List.mem_of_find?_eq_some hfound
    have hname : other.name = trip.name := by simpa using List.find?_some hfound
    rw [List.inj_on_of_nodup_map hnames hother htrip hname]

/-- The visits of a stop are listed once each. -/
theorem nodup_patternsByStop {stopCount : Nat} {patterns : Array Pattern}
    (hid : ∀ {i : Nat} {p : Pattern}, patterns[i]? = some p → p.id = i) {stop : Nat} {visits}
    (hvisits : (patternsByStop stopCount patterns)[stop]? = some visits) : visits.Nodup := by
  rw [patternsByStop, Array.getElem?_map] at hvisits
  obtain ⟨stop', -, rfl⟩ := Option.map_eq_some_iff.mp hvisits
  rw [List.nodup_flatMap]
  constructor
  · -- the positions in one pattern differ
    intro p _
    refine List.Nodup.of_map Prod.snd ?_
    have hpositions : (p.stops.toList.zipIdx.map Prod.snd).Nodup := by
      rw [List.zipIdx_map_snd]
      exact List.nodup_range'
    rw [List.map_map]
    exact hpositions.sublist (List.filter_sublist.map _)
  · -- and so do the numbers of two patterns
    refine List.pairwise_iff_getElem.mpr fun i j hi hj hij => ?_
    intro visit hfirst hsecond
    obtain ⟨_, _, hfirst⟩ := List.mem_map.mp hfirst
    obtain ⟨_, _, hsecond⟩ := List.mem_map.mp hsecond
    have hids : patterns.toList[i].id = patterns.toList[j].id :=
      (Prod.mk.inj (hfirst.trans hsecond.symm)).1
    have hfirstId : patterns.toList[i].id = i := hid (by simp)
    have hsecondId : patterns.toList[j].id = j := hid (by simp)
    exact Nat.ne_of_lt hij (hfirstId.symm.trans (hids.trans hsecondId))

/-! ### Networks -/

/-- A trip of a network is as it was declared. Its numbers lead to its place in its timetable and to
a pattern of its kind, and its name is found. -/
structure HeldAs (draft : Draft) (net : Network) (declared : TripDraft) (trip : Trip) : Prop where
  name : trip.name = declared.name
  route : trip.route = declared.route
  arrivals : trip.arrivals.toList = declared.calls.map (·.arrival)
  departures : trip.departures.toList = declared.calls.map (·.departure)
  service : ∃ service, net.services[trip.service]? = some service ∧
    ∀ other, (other ∈ draft.calendars ∧ other.name = declared.calendar) ↔ other = service
  place : ∃ t, net.timetables[trip.pattern]? = some t ∧ t.trips[trip.rank]? = some trip
  pattern : ∃ p, net.patterns[trip.pattern]? = some p ∧ p.route = declared.route ∧
    p.stops.toList.map some = declared.calls.map (fun call => net.stop? call.stop) ∧
    p.flows.toList = declared.calls.map (·.flow)
  found : net.trip? declared.name = some trip

/-- The calendar of a declared trip is the only one of its name. -/
theorem Distinct.service (h : draft.Distinct) {name : String} {number : Nat}
    (hfound : draft.calendars.findIdx? (·.name == name) = some number) :
    ∃ service, draft.calendars[number]? = some service ∧
      ∀ other, (other ∈ draft.calendars ∧ other.name = name) ↔ other = service := by
  obtain ⟨hlt, hname, -⟩ := List.findIdx?_eq_some_iff_getElem.mp hfound
  have hname : draft.calendars[number].name = name := by simpa using hname
  refine ⟨draft.calendars[number], List.getElem?_eq_getElem hlt, fun other => ?_⟩
  constructor
  · rintro ⟨hother, hsame⟩
    exact List.inj_on_of_nodup_map h.calendars hother (List.getElem_mem hlt)
      (hsame.trans hname.symm)
  · rintro rfl
    exact ⟨List.getElem_mem hlt, hname⟩

/-- What a placed trip becomes is as the trip was declared. -/
theorem Numbered.heldAs {entry : TripDraft × TripId} {trip : Trip} (hdistinct : draft.Distinct)
    (hsound : placement.Sound draft.routes draft.stopNames.size)
    (hholds : placement.Holds draft draft.trips.toList.zipIdx)
    (hstops : net.stops = draft.stopTable draft.stopNames)
    (hpatterns : net.patterns = placement.patterns)
    (htimetables : net.timetables = placement.timetables.mapIdx fun i t => t.number i)
    (hservices : net.services = draft.calendars.toArray)
    (hnames : (net.allTrips.map (·.name)).Nodup)
    (hentry : entry ∈ draft.trips.toList.zipIdx)
    (h : Numbered placement.timetables (draft.scheduled entry) trip) :
    draft.HeldAs net entry.1 trip := by
  obtain ⟨i, rank, t, ht, hrank, rfl⟩ := h
  have htable : net.timetables[i]? = some (t.number i) := by simp [htimetables, ht]
  have htrip : (t.number i).trips[rank]? =
      some { draft.scheduled entry with pattern := i, rank } := by
    simp [Timetable.number, hrank]
  obtain ⟨service, hservice⟩ := hholds.known entry hentry
  constructor
  case name => rfl
  case route => rfl
  case arrivals => simp [scheduled, schedule]
  case departures => simp [scheduled, schedule]
  case service =>
    obtain ⟨found, hfound, honly⟩ := hdistinct.service hservice
    refine ⟨found, ?_, honly⟩
    simp [hservices, scheduled, schedule, hservice, hfound]
  case place => exact ⟨t.number i, htable, htrip⟩
  case pattern =>
    have hlt : i < placement.patterns.size := by
      rw [← hsound.timetables_size]
      exact (Array.getElem?_eq_some_iff.mp ht).1
    have hp := Array.getElem?_eq_getElem hlt
    obtain ⟨other, hother, hsame, hkind⟩ := hholds.kind hp ht _ (Array.mem_of_getElem? hrank)
    -- the numbers of the declared trips tell them apart
    have hnumber : entry.2 = other.2 := congrArg Trip.id hsame
    have hdeclared : entry.1 = other.1 := by
      have hfirst := List.mem_zipIdx_iff_getElem?.mp hentry
      have hsecond := List.mem_zipIdx_iff_getElem?.mp hother
      rw [hnumber] at hfirst
      exact Option.some.inj (hfirst.symm.trans hsecond)
    have hdraft : entry.1 ∈ draft.trips :=
      Array.mem_toList_iff.mp (List.mem_of_getElem? (List.mem_zipIdx_iff_getElem?.mp hentry))
    refine ⟨_, by rw [hpatterns]; exact hp, ?_⟩
    rw [hkind, ← hdeclared]
    refine ⟨rfl, ?_, by simp [kindOf, callFlows]⟩
    simp only [kindOf, callStops, List.map_map]
    refine List.map_congr_left fun call hcall => ?_
    rw [stop?_eq hstops (mem_stopNames_of_call hdraft hcall)]
    rfl
  case found =>
    have hmem : { draft.scheduled entry with pattern := i, rank } ∈ net.allTrips :=
      List.mem_flatMap.mpr ⟨t.number i, Array.mem_toList_iff.mpr (Array.mem_of_getElem? htable),
        Array.mem_toList_iff.mpr (Array.mem_of_getElem? htrip)⟩
    exact trip?_eq hnames hmem

end Draft

/-- A network that is built from a sequence of declarations holds every declared trip exactly once,
as it was declared. No trip of a timetable is overtaken by one before it, and every stop has exactly
the visits of the patterns through it, each once. -/
theorem build_holds {draft : Draft} {net : Network} (hdeclared : draft.Declared)
    (hbuild : draft.build = .ok net) :
    (∃ trips, net.allTrips.Perm trips ∧ trips.Nodup ∧
      List.Forall₂ (draft.HeldAs net) draft.trips.toList trips) ∧
    (∀ (i rank rank' : Nat) (t : Timetable) (trip trip' : Trip), net.timetables[i]? = some t →
      t.trips[rank]? = some trip → t.trips[rank']? = some trip' → rank ≤ rank' →
      trip.NeverAfter trip') ∧
    ∀ stop < net.stopCount, ∃ visits, net.patternsAt[stop]? = some visits ∧ visits.Nodup ∧
      ∀ i position, (i, position) ∈ visits ↔
        ∃ p, net.patterns[i]? = some p ∧ p.stops[position]? = some stop := by
  obtain ⟨placement, hplacement, hstops, hpatterns, htimetables, hvisits, hservices⟩ :=
    Draft.build_eq hbuild
  have hnet := Draft.build_sound hbuild
  have hsound := Draft.placement_sound hplacement
  have hholds := Draft.placement_holds hplacement
  have hdistinct := hdeclared.distinct
  refine ⟨?_, ?_, ?_⟩
  · obtain ⟨trips, hnumbered, hperm⟩ :=
      List.perm_comp_forall₂ hholds.trips.symm (Draft.numbered placement.timetables)
    rw [List.forall₂_map_left_iff] at hnumbered
    have hperm : net.allTrips.Perm trips := by
      rw [Network.allTrips, htimetables]
      exact hperm.symm
    have hnames : draft.trips.toList.map (·.name) = trips.map (·.name) := by
      rw [← List.zipIdx_map_fst 0 draft.trips.toList, List.map_map, ← List.forall₂_eq_eq_eq,
        List.forall₂_map_left_iff, List.forall₂_map_right_iff]
      refine hnumbered.imp ?_
      rintro entry _ ⟨i, rank, t, -, -, rfl⟩
      rfl
    have hnodup : (trips.map (·.name)).Nodup := by
      rw [← hnames]
      exact hdistinct.trips
    have hdistinctNames : (net.allTrips.map (·.name)).Nodup := (hperm.map _).nodup_iff.mpr hnodup
    refine ⟨trips, hperm, hnodup.of_map _, ?_⟩
    rw [← List.zipIdx_map_fst 0 draft.trips.toList, List.forall₂_map_left_iff]
    have hboth := (List.forall₂_and_left _ _).mpr
      ⟨fun entry (hentry : entry ∈ draft.trips.toList.zipIdx) => hentry, hnumbered⟩
    exact hboth.imp fun entry trip h => h.2.heldAs hdistinct hsound hholds hstops hpatterns
      htimetables hservices hdistinctNames h.1
  · intro i rank rank' t trip trip' ht htrip htrip' hle
    have hlt : i < net.patterns.size := by
      rw [← hnet.timetables_size]
      exact (Array.getElem?_eq_some_iff.mp ht).1
    exact (hnet.timetable_sound (Array.getElem?_eq_getElem hlt) ht).neverAfter hle htrip htrip'
  · intro stop hstop
    have hlt : stop < net.patternsAt.size := by rwa [hnet.patternsAt_size]
    obtain ⟨visits, hget⟩ : ∃ visits, net.patternsAt[stop]? = some visits :=
      ⟨_, Array.getElem?_eq_getElem hlt⟩
    refine ⟨visits, hget, ?_, hnet.mem_patternsAt hget⟩
    rw [hvisits] at hget
    exact Draft.nodup_patternsByStop hsound.pattern_id hget

/-- A trip of the red line from A to B. -/
def redTrip (name : String) (departure arrival : Time) : TripDraft :=
  ⟨name, 0, Draft.defaultCalendar,
    [⟨"A", departure, departure, .boardAndAlight⟩, ⟨"B", arrival, arrival, .boardAndAlight⟩]⟩

def redLine (trips : List TripDraft) : Draft :=
  { Draft.new Draft.defaultDate with routes := #[⟨"red", 0⟩], trips := trips.toArray }

/-- One more trip of the red line is declared. -/
theorem redLine_declared {trips : List TripDraft} (h : (redLine trips).Declared) (name : String)
    (departure arrival : Time) (hnew : trips.any (·.name == name) = false) :
    (redLine (trips ++ [redTrip name departure arrival])).Declared := by
  refine @Draft.Declared.trip _ _ 0 name none
    [.call "A" (.seconds departure) (.seconds departure),
      .call "B" (.seconds arrival) (.seconds arrival)] h ?_
  have hcalls : List.foldlM (Draft.addLine name) []
      [.call "A" (.seconds departure) (.seconds departure),
        .call "B" (.seconds arrival) (.seconds arrival)] =
      .ok (redTrip name departure arrival).calls := by
    simp [Draft.addLine, TimeEntry.resolve, bind, Except.bind, pure, Except.pure, redTrip]
  rw [Draft.trip, hcalls]
  simp [redLine, hnew, redTrip, bind, Except.bind, pure, Except.pure]

/-- Three trips of one line. The second one runs before the first, which the third one overtakes. -/
def overtakenTrip : Draft :=
  redLine [redTrip "late" 36000 37800, redTrip "early" 32400 34200, redTrip "fast" 36300 36900]

theorem overtakenTrip_declared : overtakenTrip.Declared := by
  have hroute : (redLine []).Declared := by
    simpa [Draft.route, redLine, Draft.new] using
      (Draft.Declared.new Draft.defaultDate).route "red"
  have hlate := redLine_declared hroute "late" 36000 37800 rfl
  have hearly := redLine_declared hlate "early" 32400 34200 (by decide)
  exact redLine_declared hearly "fast" 36300 36900 (by decide)

/-- The early trip moves in front of the late one. The fast one fits no timetable and opens a
second one. -/
theorem build_holds_overtakenTrip : ∃ net trips visits,
    overtakenTrip.Declared ∧ overtakenTrip.build = .ok net ∧
    net.allTrips.map (·.name) = ["early", "late", "fast"] ∧
    net.allTrips.Perm trips ∧ trips.Nodup ∧
    List.Forall₂ (overtakenTrip.HeldAs net) overtakenTrip.trips.toList trips ∧
    net.patternsAt[0]? = some visits ∧ visits.length = 2 ∧ visits.Nodup := by
  have hbuilds : overtakenTrip.builds (fun net => decide (
      net.allTrips.map (·.name) = ["early", "late", "fast"] ∧ 0 < net.stopCount ∧
      net.patternsAt[0]? = some [(0, 0), (1, 0)])) = true := by
    decide +kernel
  obtain ⟨net, hbuild, hfacts⟩ := Draft.exists_of_builds hbuilds
  obtain ⟨hnames, hstop, hvisits⟩ := of_decide_eq_true hfacts
  obtain ⟨⟨trips, hperm, hnodup, hheld⟩, -, hat⟩ := build_holds overtakenTrip_declared hbuild
  obtain ⟨visits, hget, hvisitsNodup, -⟩ := hat 0 hstop
  obtain rfl := Option.some.inj (hvisits.symm.trans hget)
  exact ⟨net, trips, _, overtakenTrip_declared, hbuild, hnames, hperm, hnodup, hheld, hget, rfl,
    hvisitsNodup⟩

end JourneyPlanner
