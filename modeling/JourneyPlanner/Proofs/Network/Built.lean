import JourneyPlanner.Network.Draft
import JourneyPlanner.Request
import JourneyPlanner.Proofs.Network.Timetable

/-!
# Built networks

What the tables of a network have in common once it is built from a draft.

* `Network.HasWalk`: a walk was declared.
* `Network.RunsOn`: a trip runs on a date.
* `Network.Sound`: the tables have one entry for every stop or pattern, they refer to stops,
  patterns and trips that exist, and every timetable is sound.
* `Draft.build_sound`: a network that was built is sound.
* `twoLines`: a small network that the main results are applied to.
-/

namespace JourneyPlanner

namespace Network

def HasWalk (net : Network) (w : Walk) : Prop :=
  ∃ walks, net.walksFrom[w.source]? = some walks ∧ w ∈ walks

def RunsOn (net : Network) (date : Date) (trip : Trip) : Prop :=
  ∃ service, net.services[trip.service]? = some service ∧ date ∈ service.dates

/-- The tables of the network agree with each other. -/
structure Sound (net : Network) : Prop where
  timetables_size : net.timetables.size = net.patterns.size
  pattern_id : ∀ {i : Nat} {p : Pattern}, net.patterns[i]? = some p → p.id = i
  flows_size : ∀ {i : Nat} {p : Pattern}, net.patterns[i]? = some p → p.flows.size = p.length
  stop_lt : ∀ {i position stop : Nat} {p : Pattern}, net.patterns[i]? = some p →
    p.stops[position]? = some stop → stop < net.stopCount
  timetable_sound : ∀ {i : Nat} {p : Pattern} {t : Timetable}, net.patterns[i]? = some p →
    net.timetables[i]? = some t → t.Sound p.length
  trip_route : ∀ {i rank : Nat} {p : Pattern} {t : Timetable} {trip : Trip},
    net.patterns[i]? = some p → net.timetables[i]? = some t → t.trips[rank]? = some trip →
      trip.route = p.route
  trip_pattern : ∀ {i rank : Nat} {t : Timetable} {trip : Trip}, net.timetables[i]? = some t →
    t.trips[rank]? = some trip → trip.pattern = i
  same_reluctance : ∀ {i : Nat} {t : Timetable}, net.timetables[i]? = some t →
    ∀ trip ∈ t.trips, ∀ other ∈ t.trips, trip.reluctance = other.reluctance
  patternsAt_size : net.patternsAt.size = net.stopCount
  mem_patternsAt : ∀ {stop : Nat} {visits}, net.patternsAt[stop]? = some visits →
    ∀ i position, (i, position) ∈ visits ↔
      ∃ p, net.patterns[i]? = some p ∧ p.stops[position]? = some stop
  walksFrom_size : net.walksFrom.size = net.stopCount
  walksTo_size : net.walksTo.size = net.stopCount
  mem_walksFrom : ∀ {stop : Nat} {walks}, net.walksFrom[stop]? = some walks →
    ∀ w, w ∈ walks ↔ net.HasWalk w ∧ w.source = stop
  mem_walksTo : ∀ {stop : Nat} {walks}, net.walksTo[stop]? = some walks →
    ∀ w, w ∈ walks ↔ net.HasWalk w ∧ w.target = stop
  walk_target_lt : ∀ {w : Walk}, net.HasWalk w → w.target < net.stopCount
  rules_eq : ∀ {index}, net.rules = some index → ∃ rules,
    index = RuleIndex.build (net.stops.map (·.station)) net.patterns net.timetables rules

end Network

/-! ### Names of stops -/

/-- Names are collected each once, none being lost. -/
theorem mem_foldl_distinct (mentions : List String) (names : Array String) (name : String) :
    name ∈ mentions.foldl
        (fun names name => if names.contains name then names else names.push name) names ↔
      name ∈ names ∨ name ∈ mentions := by
  induction mentions generalizing names with
  | nil => simp
  | cons first rest ih =>
    rw [List.foldl_cons, ih]
    split
    case isTrue h =>
      have : first ∈ names := by simpa using h
      constructor
      · rintro (h | h) <;> simp [h]
      · rintro (h | h)
        · exact .inl h
        · rcases List.mem_cons.mp h with rfl | h
          · exact .inl this
          · exact .inr h
    case isFalse h => simp [or_assoc]

namespace Draft

/-- A name that is held has a number inside the table. -/
theorem stopNumber_lt {names : Array String} {name : String} (h : name ∈ names) :
    stopNumber names name < names.size := by
  obtain ⟨i, hi, rfl⟩ := Array.mem_iff_getElem.mp h
  cases hfound : names.findIdx? (· == names[i]) with
  | none =>
    have := Array.findIdx?_eq_none_iff.mp hfound names[i] (by simp)
    simp at this
  | some j =>
    have := (Array.findIdx?_eq_some_iff_getElem.mp hfound).1
    simpa [stopNumber, hfound] using this

variable {draft : Draft}

theorem mem_stopNames_of_call {trip : TripDraft} {call : Call} (htrip : trip ∈ draft.trips)
    (hcall : call ∈ trip.calls) : call.stop ∈ draft.stopNames := by
  rw [stopNames, mem_foldl_distinct]
  right
  simp only [List.mem_append, List.mem_flatMap, List.mem_map, Array.mem_toList_iff]
  exact .inl (.inr ⟨trip, htrip, call, hcall, rfl⟩)

theorem mem_stopNames_of_walk {walk : WalkDraft} (hwalk : walk ∈ draft.walks) :
    walk.source ∈ draft.stopNames ∧ walk.target ∈ draft.stopNames := by
  simp only [stopNames, mem_foldl_distinct, List.mem_append, List.mem_flatMap, List.mem_cons,
    List.not_mem_nil, or_false]
  exact ⟨.inr (.inr ⟨walk, hwalk, .inl rfl⟩), .inr (.inr ⟨walk, hwalk, .inr rfl⟩)⟩

/-! ### Placing trips -/

/-- What holds of patterns and timetables while trips are placed. -/
structure Placement.Sound (routes : Array Route) (stopCount : Nat) (placement : Placement) :
    Prop where
  timetables_size : placement.timetables.size = placement.patterns.size
  pattern_id : ∀ {i : Nat} {p : Pattern}, placement.patterns[i]? = some p → p.id = i
  flows_size : ∀ {i : Nat} {p : Pattern}, placement.patterns[i]? = some p →
    p.flows.size = p.length
  stop_lt : ∀ {i position stop : Nat} {p : Pattern}, placement.patterns[i]? = some p →
    p.stops[position]? = some stop → stop < stopCount
  timetable_sound : ∀ {i : Nat} {p : Pattern} {t : Timetable},
    placement.patterns[i]? = some p → placement.timetables[i]? = some t → t.Sound p.length
  trip_route : ∀ {i : Nat} {p : Pattern} {t : Timetable}, placement.patterns[i]? = some p →
    placement.timetables[i]? = some t → ∀ trip ∈ t.trips, trip.route = p.route
  reluctance : ∀ {i : Nat} {t : Timetable}, placement.timetables[i]? = some t →
    ∀ trip ∈ t.trips, trip.reluctance = (routes[trip.route]?.map (·.reluctance)).getD 0

theorem placement_sound_empty (routes : Array Route) (stopCount : Nat) :
    Placement.Sound routes stopCount ⟨#[], #[]⟩ := by
  constructor <;> simp

/-- An insertion brings no trip but its own. -/
theorem mem_of_insert? {t t' : Timetable} {trip other : Trip} (h : t.insert? trip = some t')
    (hother : other ∈ t'.trips) : other = trip ∨ other ∈ t.trips := by
  obtain ⟨rank, -, h⟩ := Option.bind_eq_some_iff.mp h
  obtain rfl := Option.some.inj h
  rw [← Array.mem_toList_iff, toList_insertIdxIfInBounds] at hother
  exact (List.eq_or_mem_of_mem_insertIdx hother).imp_right Array.mem_toList_iff.mp

variable {routes : Array Route} {stopCount : Nat} {placement : Placement}
  {stops : Array StopId} {flows : Array Flow} {trip : Trip}

/-- A trip that fits a timetable of its kind is inserted there. -/
theorem Placement.Sound.insert (h : placement.Sound routes stopCount)
    (hfits : trip.Fits stops.size)
    (hreluctance : trip.reluctance = (routes[trip.route]?.map (·.reluctance)).getD 0)
    {i : Nat} {p : Pattern} {t t' : Timetable} (hp : placement.patterns[i]? = some p)
    (ht : placement.timetables[i]? = some t) (hbelongs : belongs trip.route stops flows p = true)
    (hinsert : t.insert? trip = some t') :
    Placement.Sound routes stopCount
      { placement with timetables := placement.timetables.setIfInBounds i t' } := by
  simp only [belongs, Bool.and_eq_true, beq_iff_eq] at hbelongs
  obtain ⟨⟨hroute, hstops⟩, -⟩ := hbelongs
  have hlength : p.length = stops.size := by rw [Pattern.length, hstops]
  have hget : ∀ {j : Nat} {u : Timetable},
      (placement.timetables.setIfInBounds i t')[j]? = some u →
      (j = i ∧ u = t') ∨ placement.timetables[j]? = some u := by
    intro j u hu
    rw [Array.getElem?_setIfInBounds] at hu
    split at hu
    case isTrue hij =>
      split at hu
      · exact .inl ⟨hij.symm, (Option.some.inj hu).symm⟩
      · cases hu
    case isFalse => exact .inr hu
  refine ⟨by simpa using h.timetables_size, h.pattern_id, h.flows_size, h.stop_lt, ?_, ?_, ?_⟩
  · intro j q u hq hu
    rcases hget hu with ⟨rfl, rfl⟩ | hu
    · obtain rfl : p = q := Option.some.inj (hp.symm.trans hq)
      exact Timetable.insert?_sound (h.timetable_sound hp ht) (hlength ▸ hfits) hinsert
    · exact h.timetable_sound hq hu
  · intro j q u hq hu other hother
    rcases hget hu with ⟨rfl, rfl⟩ | hu
    · obtain rfl : p = q := Option.some.inj (hp.symm.trans hq)
      rcases mem_of_insert? hinsert hother with rfl | hother
      · exact hroute.symm
      · exact h.trip_route hp ht other hother
    · exact h.trip_route hq hu other hother
  · intro j u hu other hother
    rcases hget hu with ⟨rfl, rfl⟩ | hu
    · rcases mem_of_insert? hinsert hother with rfl | hother
      · exact hreluctance
      · exact h.reluctance ht other hother
    · exact h.reluctance hu other hother

/-- The timetable that is opened for a trip holds this trip at most. -/
theorem opened_sound (pattern : Nat) {length : Nat} (hfits : trip.Fits length) :
    let opened := Timetable.empty pattern length
    ((opened.insert? trip).getD opened).Sound length ∧
      ∀ other ∈ ((opened.insert? trip).getD opened).trips, other = trip := by
  intro opened
  cases hinsert : opened.insert? trip with
  | none => exact ⟨Timetable.empty_sound _ _, by simp [opened, Timetable.empty]⟩
  | some t =>
    refine ⟨Timetable.insert?_sound (Timetable.empty_sound _ _) hfits hinsert, ?_⟩
    intro other hother
    exact (mem_of_insert? hinsert hother).elim id (by simp [opened, Timetable.empty])

/-- An entry of a table is the one that was added last, or an earlier one. -/
theorem eq_or_of_getElem?_push {α : Type} {table : Array α} {last a : α} {i : Nat}
    (h : (table.push last)[i]? = some a) : i = table.size ∧ a = last ∨ table[i]? = some a := by
  rw [Array.getElem?_push] at h
  split at h
  case isTrue hi => exact .inl ⟨hi, (Option.some.inj h).symm⟩
  case isFalse => exact .inr h

/-- A trip that fits no timetable opens a new one. -/
theorem Placement.Sound.push (h : placement.Sound routes stopCount)
    (hfits : trip.Fits stops.size) (hflows : flows.size = stops.size)
    (hstops : ∀ stop ∈ stops, stop < stopCount)
    (hreluctance : trip.reluctance = (routes[trip.route]?.map (·.reluctance)).getD 0) :
    let opened := Timetable.empty placement.patterns.size stops.size
    Placement.Sound routes stopCount
      { patterns := placement.patterns.push ⟨placement.patterns.size, trip.route, stops, flows⟩
        timetables := placement.timetables.push ((opened.insert? trip).getD opened) } := by
  intro opened
  obtain ⟨hsound, honly⟩ := opened_sound placement.patterns.size hfits
  -- a pattern and a timetable with one number are both new or both old
  have hpairs : ∀ {i : Nat} {p : Pattern} {t : Timetable},
      (placement.patterns.push ⟨placement.patterns.size, trip.route, stops, flows⟩)[i]? = some p →
      (placement.timetables.push ((opened.insert? trip).getD opened))[i]? = some t →
      (p = ⟨placement.patterns.size, trip.route, stops, flows⟩ ∧
        t = (opened.insert? trip).getD opened) ∨
        placement.patterns[i]? = some p ∧ placement.timetables[i]? = some t := by
    intro i p t hp ht
    have hsize := h.timetables_size
    rcases eq_or_of_getElem?_push hp with ⟨rfl, rfl⟩ | hp <;>
      rcases eq_or_of_getElem?_push ht with ⟨hi, rfl⟩ | ht
    · exact .inl ⟨rfl, rfl⟩
    · exact absurd (hsize ▸ (Array.getElem?_eq_some_iff.mp ht).1) (Nat.lt_irrefl _)
    · exact absurd (hi.trans hsize) (Nat.ne_of_lt (Array.getElem?_eq_some_iff.mp hp).1)
    · exact .inr ⟨hp, ht⟩
  constructor
  case timetables_size => simp [h.timetables_size]
  case pattern_id =>
    intro i p hp
    rcases eq_or_of_getElem?_push hp with ⟨rfl, rfl⟩ | hp
    · rfl
    · exact h.pattern_id hp
  case flows_size =>
    intro i p hp
    rcases eq_or_of_getElem?_push hp with ⟨rfl, rfl⟩ | hp
    · exact hflows
    · exact h.flows_size hp
  case stop_lt =>
    intro i position stop p hp hstop
    rcases eq_or_of_getElem?_push hp with ⟨rfl, rfl⟩ | hp
    · exact hstops stop (Array.mem_of_getElem? hstop)
    · exact h.stop_lt hp hstop
  case timetable_sound =>
    intro i p t hp ht
    rcases hpairs hp ht with ⟨rfl, rfl⟩ | ⟨hp, ht⟩
    · exact hsound
    · exact h.timetable_sound hp ht
  case trip_route =>
    intro i p t hp ht other hother
    rcases hpairs hp ht with ⟨rfl, rfl⟩ | ⟨hp, ht⟩
    · rw [honly other hother]
    · exact h.trip_route hp ht other hother
  case reluctance =>
    intro i t ht other hother
    rcases eq_or_of_getElem?_push ht with ⟨rfl, rfl⟩ | ht
    · rw [honly other hother, hreluctance]
    · exact h.reluctance ht other hother

/-- A trip goes into a timetable of its kind that it fits, or into a new one. -/
theorem place_cases (hid : ∀ {i : Nat} {p : Pattern}, placement.patterns[i]? = some p → p.id = i) :
    (∃ i p t t', placement.patterns[i]? = some p ∧ placement.timetables[i]? = some t ∧
      belongs trip.route stops flows p = true ∧ t.insert? trip = some t' ∧
      place placement stops flows trip =
        { placement with timetables := placement.timetables.setIfInBounds i t' }) ∨
    let opened := Timetable.empty placement.patterns.size stops.size
    place placement stops flows trip =
      { patterns := placement.patterns.push ⟨placement.patterns.size, trip.route, stops, flows⟩
        timetables := placement.timetables.push ((opened.insert? trip).getD opened) } := by
  rw [Draft.place]
  dsimp only
  split
  case h_1 i t' hfound =>
    obtain ⟨⟨p, t⟩, hmem, hfound⟩ := List.exists_of_findSome?_eq_some hfound
    rw [Array.mem_toList_iff] at hmem
    obtain ⟨j, hj⟩ := Array.mem_iff_getElem?.mp hmem
    obtain ⟨hp, ht⟩ := Array.getElem?_zip_eq_some.mp hj
    dsimp only at hfound hp ht
    split at hfound
    case isTrue hbelongs =>
      obtain ⟨inserted, hinsert, hpair⟩ := Option.map_eq_some_iff.mp hfound
      obtain ⟨rfl, rfl⟩ := Prod.mk.inj hpair
      rw [hid hp]
      exact .inl ⟨j, p, t, inserted, hp, ht, hbelongs, hinsert, rfl⟩
    case isFalse => cases hfound
  case h_2 => exact .inr rfl

/-- Placing a trip that fits keeps the tables in agreement. -/
theorem Placement.Sound.place (h : placement.Sound routes stopCount)
    (hfits : trip.Fits stops.size) (hflows : flows.size = stops.size)
    (hstops : ∀ stop ∈ stops, stop < stopCount)
    (hreluctance : trip.reluctance = (routes[trip.route]?.map (·.reluctance)).getD 0) :
    (place placement stops flows trip).Sound routes stopCount := by
  rcases place_cases h.pattern_id with ⟨i, p, t, t', hp, ht, hbelongs, hinsert, heq⟩ | heq
  · rw [heq]
    exact h.insert hfits hreluctance hp ht hbelongs hinsert
  · rw [heq]
    exact h.push hfits hflows hstops hreluctance

/-- An invariant that every turn of a loop without faults keeps. -/
theorem foldlM_keeps {ε σ β : Type} {I : σ → Prop} {f : σ → β → Except ε σ} {xs : List β}
    {s s' : σ} (hfold : xs.foldlM f s = .ok s') (hs : I s)
    (hf : ∀ s s', ∀ b ∈ xs, f s b = .ok s' → I s → I s') : I s' := by
  induction xs generalizing s with
  | nil =>
    obtain rfl : s = s' := Except.ok.inj hfold
    exact hs
  | cons b xs ih =>
    rw [List.foldlM_cons] at hfold
    cases hb : f s b with
    | error e => rw [hb] at hfold; cases hfold
    | ok s₁ =>
      rw [hb] at hfold
      exact ih hfold (hf s s₁ b (by simp) hb hs) fun s s' b hb => hf s s' b (by simp [hb])

/-- The trip of a timetable that stands for a declared one. -/
def scheduled (draft : Draft) (entry : TripDraft × TripId) : Trip :=
  schedule draft.routes entry.2 entry.1
    ((draft.calendars.findIdx? (·.name == entry.1.calendar)).getD 0)

/-- The numbers of the stops of a declared trip. -/
def callStops (draft : Draft) (trip : TripDraft) : Array StopId :=
  (trip.calls.map fun call => stopNumber draft.stopNames call.stop).toArray

/-- What is allowed at the stops of a declared trip. -/
def callFlows (trip : TripDraft) : Array Flow := (trip.calls.map (·.flow)).toArray

/-- A declared trip is placed if it is long enough and its calendar is known. -/
theorem placeDraft_eq_ok {entry : TripDraft × TripId} {placement' : Placement}
    (hplace : draft.placeDraft draft.stopNames placement entry = .ok placement') :
    (∃ service, draft.calendars.findIdx? (·.name == entry.1.calendar) = some service) ∧
      placement' = place placement (draft.callStops entry.1) (callFlows entry.1)
        (draft.scheduled entry) := by
  rw [placeDraft] at hplace
  dsimp only at hplace
  split at hplace
  case isTrue => cases hplace
  case isFalse =>
    split at hplace
    case h_1 => cases hplace
    case h_2 service hservice =>
      obtain rfl := Except.ok.inj hplace
      refine ⟨⟨service, hservice⟩, ?_⟩
      rw [scheduled, hservice]
      rfl

theorem placeDraft_sound (h : placement.Sound draft.routes draft.stopNames.size)
    {entry : TripDraft × TripId} (hentry : entry.1 ∈ draft.trips) {placement' : Placement}
    (hplace : draft.placeDraft draft.stopNames placement entry = .ok placement') :
    placement'.Sound draft.routes draft.stopNames.size := by
  obtain ⟨-, rfl⟩ := placeDraft_eq_ok hplace
  refine h.place ⟨?_, ?_⟩ ?_ ?_ rfl
  · simp [scheduled, schedule, callStops]
  · simp [scheduled, schedule, callStops]
  · simp [callStops, callFlows]
  · intro stop hstop
    simp only [callStops, List.mem_toArray, List.mem_map] at hstop
    obtain ⟨call, hcall, rfl⟩ := hstop
    exact stopNumber_lt (mem_stopNames_of_call hentry hcall)

/-! ### Tables by stop -/

/-- The table of visits of a stop lists the positions of patterns there, and only these. -/
theorem mem_patternsByStop {stopCount : Nat} {patterns : Array Pattern}
    (hid : ∀ {i : Nat} {p : Pattern}, patterns[i]? = some p → p.id = i) {stop : Nat} {visits}
    (hvisits : (patternsByStop stopCount patterns)[stop]? = some visits) (i position : Nat) :
    (i, position) ∈ visits ↔ ∃ p, patterns[i]? = some p ∧ p.stops[position]? = some stop := by
  rw [patternsByStop, Array.getElem?_map] at hvisits
  obtain ⟨stop', hstop', rfl⟩ := Option.map_eq_some_iff.mp hvisits
  obtain ⟨hlt, hstop'⟩ := Array.getElem?_eq_some_iff.mp hstop'
  rw [Array.getElem_range] at hstop'
  subst hstop'
  simp only [List.mem_flatMap, Array.mem_toList_iff, List.mem_map, List.mem_filter,
    List.mem_zipIdx_iff_getElem?, beq_iff_eq, Prod.exists, Prod.mk.injEq]
  constructor
  · rintro ⟨p, hp, s, position', ⟨hstops, rfl⟩, rfl, rfl⟩
    obtain ⟨i, hi⟩ := Array.mem_iff_getElem?.mp hp
    exact ⟨p, by rw [hid hi]; exact hi, by simpa using hstops⟩
  · rintro ⟨p, hp, hstop⟩
    exact ⟨p, Array.mem_of_getElem? hp, stop, position, ⟨by simpa using hstop, rfl⟩, hid hp, rfl⟩

/-- The table of walks of a stop lists the declared walks with this end there, and only these. -/
theorem mem_walksByStop {stopCount : Nat} {walks found : List Walk} {side : Walk → StopId}
    {stop : Nat} (h : (walksByStop stopCount walks side)[stop]? = some found) (w : Walk) :
    w ∈ found ↔ w ∈ walks ∧ side w = stop := by
  rw [walksByStop, Array.getElem?_map] at h
  obtain ⟨stop', hstop', rfl⟩ := Option.map_eq_some_iff.mp h
  obtain ⟨hlt, hstop'⟩ := Array.getElem?_eq_some_iff.mp hstop'
  rw [Array.getElem_range] at hstop'
  subst hstop'
  simp

/-! ### The network -/

/-- The walks of a draft, with the numbers of their stops. -/
def numberedWalks (draft : Draft) : List Walk :=
  draft.walks.map fun walk =>
    ⟨stopNumber draft.stopNames walk.source, stopNumber draft.stopNames walk.target, walk.duration⟩

theorem mem_numberedWalks {w : Walk} (h : w ∈ draft.numberedWalks) :
    w.source < draft.stopNames.size ∧ w.target < draft.stopNames.size := by
  obtain ⟨walk, hwalk, rfl⟩ := List.mem_map.mp h
  have := mem_stopNames_of_walk hwalk
  exact ⟨stopNumber_lt this.1, stopNumber_lt this.2⟩

theorem hasWalk_iff {net : Network} {w : Walk}
    (hfrom : net.walksFrom = walksByStop draft.stopNames.size draft.numberedWalks Walk.source) :
    net.HasWalk w ↔ w ∈ draft.numberedWalks := by
  rw [Network.HasWalk, hfrom]
  constructor
  · rintro ⟨walks, hwalks, hw⟩
    exact ((mem_walksByStop hwalks w).mp hw).1
  · intro hw
    have hlt : w.source <
        (walksByStop draft.stopNames.size draft.numberedWalks Walk.source).size := by
      simpa [walksByStop] using (mem_numberedWalks hw).1
    exact ⟨_, Array.getElem?_eq_getElem hlt,
      (mem_walksByStop (Array.getElem?_eq_getElem hlt) w).mpr ⟨hw, rfl⟩⟩

/-- Placing the trips of a draft one after the other keeps the timetables in order. -/
theorem placement_sound {placement : Placement}
    (h : draft.trips.toList.zipIdx.foldlM (draft.placeDraft draft.stopNames) ⟨#[], #[]⟩ =
      .ok placement) :
    placement.Sound draft.routes draft.stopNames.size := by
  refine foldlM_keeps h (placement_sound_empty _ _) ?_
  intro before after entry hentry hplace hbefore
  refine placeDraft_sound hbefore ?_ hplace
  obtain ⟨trip, number⟩ := entry
  rw [List.mem_zipIdx_iff_getElem?] at hentry
  exact Array.mem_toList_iff.mp (List.mem_of_getElem? hentry)

/-- The trips of a numbered timetable have the reluctance of their route. -/
theorem Placement.Sound.reluctance_number (h : placement.Sound routes stopCount) {i : Nat}
    {p : Pattern} {t : Timetable} (hp : placement.patterns[i]? = some p)
    (ht : placement.timetables[i]? = some t) {trip : Trip} (htrip : trip ∈ (t.number i).trips) :
    trip.reluctance = (routes[p.route]?.map (·.reluctance)).getD 0 := by
  obtain ⟨rank, hrank⟩ := Array.mem_iff_getElem?.mp htrip
  obtain ⟨trip₀, htrip₀, rfl⟩ := Timetable.getElem?_number hrank
  have hmem := Array.mem_of_getElem? htrip₀
  rw [← h.trip_route hp ht trip₀ hmem]
  exact h.reluctance ht trip₀ hmem

/-- The tables of a network agree with each other before its rules are added. -/
theorem buildWithoutRules_sound {net : Network} (h : draft.buildWithoutRules = .ok net) :
    net.Sound ∧ net.rules = none := by
  rw [buildWithoutRules] at h
  dsimp only at h
  cases hplacement : draft.trips.toList.zipIdx.foldlM (draft.placeDraft draft.stopNames)
      ⟨#[], #[]⟩ with
  | error e => rw [hplacement] at h; cases h
  | ok placement =>
    rw [hplacement] at h
    obtain rfl := Except.ok.inj h
    have hsound := placement_sound hplacement
    have hcount : (draft.stopTable draft.stopNames).size = draft.stopNames.size := by
      simp [stopTable]
    have htimetable : ∀ {i : Nat} {t : Timetable},
        (placement.timetables.mapIdx fun pattern t => t.number pattern)[i]? = some t →
        ∃ t₀, placement.timetables[i]? = some t₀ ∧ t = t₀.number i := by
      intro i t ht
      rw [Array.getElem?_mapIdx] at ht
      obtain ⟨t₀, ht₀, rfl⟩ := Option.map_eq_some_iff.mp ht
      exact ⟨t₀, ht₀, rfl⟩
    refine ⟨?_, rfl⟩
    constructor
    case timetables_size => simpa using hsound.timetables_size
    case pattern_id => exact hsound.pattern_id
    case flows_size => exact hsound.flows_size
    case stop_lt =>
      intro i position stop p hp hstop
      show stop < (draft.stopTable draft.stopNames).size
      rw [hcount]
      exact hsound.stop_lt hp hstop
    case timetable_sound =>
      intro i p t hp ht
      obtain ⟨t₀, ht₀, rfl⟩ := htimetable ht
      exact (hsound.timetable_sound hp ht₀).number i
    case trip_route =>
      intro i rank p t trip hp ht htrip
      obtain ⟨t₀, ht₀, rfl⟩ := htimetable ht
      obtain ⟨trip₀, htrip₀, rfl⟩ := Timetable.getElem?_number htrip
      exact hsound.trip_route hp ht₀ trip₀ (Array.mem_of_getElem? htrip₀)
    case trip_pattern =>
      intro i rank t trip ht htrip
      obtain ⟨t₀, ht₀, rfl⟩ := htimetable ht
      obtain ⟨trip₀, htrip₀, rfl⟩ := Timetable.getElem?_number htrip
      rfl
    case same_reluctance =>
      intro i t ht trip htrip other hother
      obtain ⟨t₀, ht₀, rfl⟩ := htimetable ht
      have hlt := (Array.getElem?_eq_some_iff.mp ht₀).1
      rw [hsound.timetables_size] at hlt
      have hp := Array.getElem?_eq_getElem hlt
      rw [hsound.reluctance_number hp ht₀ htrip, hsound.reluctance_number hp ht₀ hother]
    case patternsAt_size => simp [patternsByStop, Network.stopCount, hcount]
    case mem_patternsAt =>
      intro stop visits hvisits
      exact mem_patternsByStop hsound.pattern_id hvisits
    case walksFrom_size => simp [walksByStop, Network.stopCount, hcount]
    case walksTo_size => simp [walksByStop, Network.stopCount, hcount]
    case mem_walksFrom =>
      intro stop walks hwalks w
      rw [hasWalk_iff rfl]
      exact mem_walksByStop hwalks w
    case mem_walksTo =>
      intro stop walks hwalks w
      rw [hasWalk_iff rfl]
      exact mem_walksByStop hwalks w
    case walk_target_lt =>
      intro w hw
      show w.target < (draft.stopTable draft.stopNames).size
      rw [hcount]
      exact (mem_numberedWalks ((hasWalk_iff rfl).mp hw)).2
    case rules_eq =>
      intro index hindex
      cases hindex

/-- Where the tables of a network that was built come from. -/
theorem build_eq {net : Network} (h : draft.build = .ok net) :
    ∃ placement,
      draft.trips.toList.zipIdx.foldlM (draft.placeDraft draft.stopNames) ⟨#[], #[]⟩ =
        .ok placement ∧
      net.stops = draft.stopTable draft.stopNames ∧
      net.patterns = placement.patterns ∧
      net.timetables = placement.timetables.mapIdx (fun pattern t => t.number pattern) ∧
      net.patternsAt = patternsByStop draft.stopNames.size placement.patterns ∧
      net.services = draft.calendars.toArray := by
  obtain ⟨plain, hplain, h⟩ := bind_eq_ok.mp h
  obtain ⟨placement, hplacement, hplain⟩ := bind_eq_ok.mp hplain
  obtain rfl := Except.ok.inj hplain
  refine ⟨placement, hplacement, ?_⟩
  split at h
  · obtain rfl := Except.ok.inj h
    exact ⟨rfl, rfl, rfl, rfl, rfl⟩
  · obtain ⟨rules, -, h⟩ := bind_eq_ok.mp h
    obtain rfl := Except.ok.inj h
    exact ⟨rfl, rfl, rfl, rfl, rfl⟩

/-- A network that was built is sound. -/
theorem build_sound {net : Network} (h : draft.build = .ok net) : net.Sound := by
  rw [build] at h
  cases hnet : draft.buildWithoutRules with
  | error e => rw [hnet] at h; cases h
  | ok plain =>
    rw [hnet] at h
    obtain ⟨hsound, hnone⟩ := buildWithoutRules_sound hnet
    by_cases hempty : draft.rules.isEmpty = true
    · simp only [bind, Except.bind, hempty, if_true] at h
      obtain rfl := Except.ok.inj h
      exact hsound
    · simp only [bind, Except.bind, hempty] at h
      cases hrules : draft.rules.mapM (resolveRule plain) with
      | error e => rw [hrules] at h; cases h
      | ok rules =>
        rw [hrules] at h
        obtain rfl := Except.ok.inj h
        exact { hsound with rules_eq := by rintro index ⟨⟩; exact ⟨rules, rfl⟩ }

end Draft

/-! ### A small network -/

/-- A draft can be built, and its network has a property. -/
def Draft.builds (draft : Draft) (P : Network → Bool) : Bool :=
  match draft.build with
  | .error _ => false
  | .ok net => P net

theorem Draft.exists_of_builds {draft : Draft} {P : Network → Bool} (h : draft.builds P = true) :
    ∃ net, draft.build = .ok net ∧ P net = true := by
  unfold builds at h
  cases hbuild : draft.build with
  | error fault =>
    rw [hbuild] at h
    cases h
  | ok net =>
    rw [hbuild] at h
    exact ⟨net, rfl, h⟩

/-- A red line from A to B, a walk from there to C, and a blue line from C to D whose first trip
waits for that of the red line. -/
def twoLines : Draft :=
  { Draft.new Draft.defaultDate with
    routes := #[⟨"red", 0⟩, ⟨"blue", 0⟩]
    trips := #[
      ⟨"red 1", 0, Draft.defaultCalendar,
        [⟨"A", 36000, 36000, .boardAndAlight⟩, ⟨"B", 36600, 36660, .boardAndAlight⟩]⟩,
      ⟨"blue 1", 1, Draft.defaultCalendar,
        [⟨"C", 36900, 36900, .boardAndAlight⟩, ⟨"D", 38400, 38400, .boardAndAlight⟩]⟩,
      ⟨"blue 2", 1, Draft.defaultCalendar,
        [⟨"C", 37800, 37800, .boardAndAlight⟩, ⟨"D", 39300, 39300, .boardAndAlight⟩]⟩]
    walks := [⟨"B", "C", 300⟩]
    rules := [⟨.tripStop "red 1" 1, .tripStop "blue 1" 0, .guaranteed⟩] }

/-- A question about the way from A to D. -/
def fromAToD (direction : Direction) (useRules : Bool) : Request :=
  { date := Draft.defaultDate
    direction
    time := match direction with
      | .forward => 35000
      | .reverse => 40000
    window := 1800
    access := [⟨0, 100, 200, false⟩]
    egress := [⟨3, 200, 400, false⟩]
    useRules }

/-- The tariff of a request that says nothing about costs. -/
def plainTariff : Tariff :=
  { board := 60000, boardAgain := 60000, wait := 100, walk := 200, transit := #[],
    leastTransit := defaultTransitFactor, stops := #[] }

end JourneyPlanner
