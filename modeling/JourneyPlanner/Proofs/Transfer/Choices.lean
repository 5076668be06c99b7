import JourneyPlanner.Proofs.Transfer.MostSpecific

/-!
# Choices between places

A choice between places means any of them. At a position the index keeps one entry of a rule, that
of the first place that means something there, and the places of a choice are in their order: those
about all trips come before those about one trip, and these by the numbers of the trips. The entry
is thus about every trip that the choice means, except where the choice means a trip by its own name
only and names an earlier trip of the same pattern at the same position.

* `Endpoint.arrange_pairwise`, `Endpoint.mem_arrange`: the places of a choice are those of its
  members, in their order.
* `Network.Names`, `Network.Means`: the places that an endpoint of a draft names, and the trips that
  it means.
* `Shadowed`: a trip that is missed because of an earlier one.
* `RuleIndex.findSome_meaning_iff`: what the entry of a rule is about.
* `constraintBetween_alone`: what the index of one rule answers, from either side.
-/

namespace JourneyPlanner

/-! ### The order of places -/

namespace Place

variable {a b c : Place}

theorem precedes_iff : a.precedes b = true ↔ a.ranking < b.ranking ∨ a.ranking = b.ranking ∧
    (a.numbers.1 < b.numbers.1 ∨ a.numbers.1 = b.numbers.1 ∧ a.numbers.2 ≤ b.numbers.2) := by
  simp [precedes]

theorem precedes_trans (a b c : Place) (hab : a.precedes b = true) (hbc : b.precedes c = true) :
    a.precedes c = true := by
  rw [precedes_iff] at *
  omega

/-- Any two places are comparable, so their order does not depend on how a choice is written. -/
theorem precedes_total (a b : Place) : (a.precedes b || b.precedes a) = true := by
  rw [Bool.or_eq_true, precedes_iff, precedes_iff]
  omega

theorem precedes_refl (a : Place) : a.precedes a = true := by
  simpa using precedes_total a a

/-- Positions of trips are in the order of the trips. -/
theorem le_of_precedes {trip trip' : TripId} {position position' : Nat}
    (h : (tripStop trip position).precedes (.tripStop trip' position') = true) : trip ≤ trip' := by
  rw [precedes_iff] at h
  rcases h with h | ⟨-, h | ⟨h, -⟩⟩
  · exact absurd h (Nat.lt_irrefl _)
  · exact Nat.le_of_lt h
  · exact Nat.le_of_eq h

/-- A position of a trip comes after all places that are none. -/
theorem eq_tripStop_of_precedes {trip : TripId} {position : Nat} {place : Place}
    (h : (tripStop trip position).precedes place = true) :
    ∃ trip' position', place = .tripStop trip' position' := by
  cases place with
  | tripStop trip' position' => exact ⟨trip', position', rfl⟩
  | stop | station | routeStop =>
    rw [precedes_iff] at h
    simp [ranking] at h

end Place

namespace Endpoint

variable {places : List Place} {place : Place}

/-- The places of a choice are in their order. -/
theorem arrange_pairwise : (arrange places).Pairwise fun a b => a.precedes b = true := by
  have hsorted := List.pairwise_mergeSort Place.precedes_trans Place.precedes_total places
  rw [arrange]
  generalize places.mergeSort Place.precedes = sorted at hsorted
  refine hsorted.sublist ?_
  clear hsorted
  induction sorted with
  | nil => exact .slnil
  | cons first rest ih =>
    simp only [List.foldr_cons]
    split
    · exact ih.cons first
    · exact ih.cons_cons first

/-- No place of a choice is left out. -/
theorem mem_arrange : place ∈ arrange places ↔ place ∈ places := by
  refine ⟨mem_of_mem_arrange, fun h => ?_⟩
  have hsorted : place ∈ places.mergeSort Place.precedes := List.mem_mergeSort.mpr h
  rw [arrange]
  generalize places.mergeSort Place.precedes = sorted at hsorted
  induction sorted with
  | nil => cases hsorted
  | cons first rest ih =>
    simp only [List.foldr_cons]
    rcases List.mem_cons.mp hsorted with rfl | hrest
    · split
      · exact List.mem_of_head? ‹_›
      · exact List.mem_cons_self
    · split
      · exact ih hrest
      · exact List.mem_cons_of_mem _ (ih hrest)

end Endpoint

/-! ### Names -/

/-- The members of a choice, or a single name. -/
def EndpointName.members : EndpointName → List EndpointName
  | .anyOf members => members
  | name => [name]

namespace Network

/-- An endpoint of a draft names a place: one of its members stands for it. -/
def Names (net : Network) (name : EndpointName) (place : Place) : Prop :=
  ∃ member ∈ name.members, Draft.resolve net member = .ok (.one place)

/-- An endpoint of a draft means a trip at a position: some place that it names does. -/
def Means (net : Network) (name : EndpointName) (trip : Trip) (position : Nat) (stop : StopId) :
    Prop :=
  ∃ place, net.Names name place ∧
    place.designates trip position stop (net.stationAt stop) = true

end Network

namespace Draft

variable {net : Network} {name : EndpointName} {names : List EndpointName}
  {endpoint : Endpoint} {endpoints : List Endpoint} {place : Place}

theorem resolve_tripStop {tripName : String} {trip : Trip} {position : Nat}
    (h : net.trip? tripName = some trip) :
    resolve net (.tripStop tripName position) = .ok (.one (.tripStop trip.id position)) := by
  rw [resolve, h]
  rfl

theorem exists_mem_resolveAll (h : resolveAll net names = .ok endpoints) (hname : name ∈ names) :
    ∃ endpoint ∈ endpoints, resolve net name = .ok endpoint := by
  induction names generalizing endpoints with
  | nil => cases hname
  | cons first rest ih =>
    rw [resolveAll] at h
    obtain ⟨resolved, hfirst, h⟩ := bind_eq_ok.mp h
    obtain ⟨others, hrest, h⟩ := bind_eq_ok.mp h
    cases h
    rcases List.mem_cons.mp hname with rfl | hname
    · exact ⟨resolved, List.mem_cons_self, hfirst⟩
    · obtain ⟨endpoint, hendpoint, hresolve⟩ := ih hrest hname
      exact ⟨endpoint, List.mem_cons_of_mem _ hendpoint, hresolve⟩

/-- A name stands for one place, or for the places of its members in their order. -/
theorem resolve_cases (h : resolve net name = .ok endpoint) :
    (name.members = [name] ∧ ∃ place, endpoint = .one place) ∨
    ∃ endpoints, resolveAll net name.members = .ok endpoints ∧
      (∀ member ∈ endpoints, member.isChoice = false) ∧
      endpoint = .anyOf (Endpoint.arrange (endpoints.flatMap Endpoint.places)) := by
  cases name with
  | stop stop =>
    obtain ⟨_, -, h⟩ := bind_eq_ok.mp h
    cases h
    exact .inl ⟨rfl, _, rfl⟩
  | station station =>
    obtain ⟨_, -, h⟩ := bind_eq_ok.mp h
    cases h
    exact .inl ⟨rfl, _, rfl⟩
  | routeStop route stop =>
    obtain ⟨_, -, h⟩ := bind_eq_ok.mp h
    obtain ⟨_, -, h⟩ := bind_eq_ok.mp h
    cases h
    exact .inl ⟨rfl, _, rfl⟩
  | tripStop trip position =>
    obtain ⟨_, -, h⟩ := bind_eq_ok.mp h
    cases h
    exact .inl ⟨rfl, _, rfl⟩
  | anyOf members =>
    rw [resolve] at h
    obtain ⟨endpoints, hendpoints, h⟩ := bind_eq_ok.mp h
    unfold Endpoint.choose at h
    split at h
    · cases h
    · rename_i hsingle
      cases h
      exact .inr ⟨endpoints, hendpoints, by simpa using hsingle, rfl⟩

/-- The places of an endpoint are those that its name names. -/
theorem mem_places_iff (h : resolve net name = .ok endpoint) :
    place ∈ endpoint.places ↔ net.Names name place := by
  rcases resolve_cases h with ⟨hmembers, only, rfl⟩ | ⟨endpoints, hendpoints, hsingle, rfl⟩
  · simp [Network.Names, hmembers, h, Endpoint.places, eq_comm]
  · rw [Endpoint.places, Endpoint.mem_arrange, List.mem_flatMap]
    constructor
    · rintro ⟨endpoint, hendpoint, hplace⟩
      obtain ⟨member, hmember, hresolve⟩ := exists_of_mem_resolveAll hendpoints hendpoint
      cases endpoint with
      | one only =>
        obtain rfl := List.mem_singleton.mp hplace
        exact ⟨member, hmember, hresolve⟩
      | anyOf places => cases hsingle _ hendpoint
    · rintro ⟨member, hmember, hresolve⟩
      obtain ⟨endpoint, hendpoint, hresolve'⟩ := exists_mem_resolveAll hendpoints hmember
      cases hresolve.symm.trans hresolve'
      exact ⟨_, hendpoint, List.mem_singleton_self place⟩

/-- The places of an endpoint are in their order. -/
theorem places_pairwise (h : resolve net name = .ok endpoint) :
    endpoint.places.Pairwise fun a b => a.precedes b = true := by
  rcases resolve_cases h with ⟨-, only, rfl⟩ | ⟨endpoints, -, -, rfl⟩
  · exact List.pairwise_singleton _ _
  · exact Endpoint.arrange_pairwise

end Draft

/-- A position of a trip that is named means the trip. -/
theorem Network.means_of_tripStop {net : Network} {name : EndpointName} {tripName : String}
    {trip : Trip} {position : Nat} {stop : StopId}
    (hmember : .tripStop tripName position ∈ name.members)
    (htrip : net.trip? tripName = some trip) : net.Means name trip position stop :=
  ⟨.tripStop trip.id position, ⟨_, hmember, Draft.resolve_tripStop htrip⟩,
    by simp [Place.designates]⟩

/-! ### Trips that are missed -/

/-- Among some places, a trip is missed at a position of its pattern: only its own name means it
there, and an earlier trip of the pattern is named there too. -/
structure Shadowed (named : Place → Prop) (t : Timetable) (trip : Trip) (position : Nat)
    (stop : StopId) (station : Option StationId) : Prop where
  byName : ∀ place, named place → place.designates trip position stop station = true →
    place = .tripStop trip.id position
  earlier : ∃ other ∈ t.trips, other.id < trip.id ∧ named (.tripStop other.id position)

/-- An endpoint of a draft means a trip, but an earlier one of the same pattern instead of it. -/
def Network.Shadows (net : Network) (name : EndpointName) (trip : Trip) (position : Nat)
    (stop : StopId) : Prop :=
  ∃ t ∈ net.timetables[trip.pattern]?,
    Shadowed (net.Names name) t trip position stop (net.stationAt stop)

namespace Draft

variable {net : Network} {name : EndpointName} {endpoint : Endpoint} {trip : Trip} {position : Nat}
  {stop : StopId} {t : Timetable}

/-- What an endpoint of a rule designates is what its declaration means. -/
theorem designates_iff_means (h : resolve net name = .ok endpoint) :
    (∃ place ∈ endpoint.places, place.designates trip position stop
      (stationOf (net.stops.map (·.station)) stop) = true) ↔ net.Means name trip position stop := by
  simp only [Network.stationOf_map_station, mem_places_iff h, Network.Means]

/-- A place is shadowed in the index if and only if it is so in the declaration. -/
theorem shadowed_iff_shadows (h : resolve net name = .ok endpoint)
    (ht : net.timetables[trip.pattern]? = some t) :
    Shadowed (· ∈ endpoint.places) t trip position stop
      (stationOf (net.stops.map (·.station)) stop) ↔ net.Shadows name trip position stop := by
  have hnamed : (· ∈ endpoint.places) = net.Names name := funext fun _ => propext (mem_places_iff h)
  rw [Network.stationOf_map_station, hnamed, Network.Shadows, ht]
  simp

end Draft

namespace RuleIndex

variable {stations : Array (Option StationId)} {p : Pattern} {t : Timetable} {position : Nat}
  {trip : Trip} {stop : StopId} {places before after : List Place} {place first : Place}

/-- Only a position of a trip of the pattern is about one trip. -/
theorem meaning_eq_some_some {named : TripId}
    (h : meaning stations p t position place = some (some named)) :
    place = .tripStop named position ∧ ∃ other ∈ t.trips, other.id = named := by
  unfold meaning at h
  split at h
  · cases h
  · cases place with
    | stop named' | station named' | routeStop route named' =>
      dsimp only at h
      split at h <;> cases h
    | tripStop trip named' =>
      dsimp only at h
      split at h
      case isFalse => cases h
      case isTrue hmeans =>
        obtain ⟨rfl, hknown⟩ := hmeans
        obtain rfl := Option.some.inj (Option.some.inj h)
        obtain ⟨i, hi, hid⟩ := Array.any_eq_true.mp hknown
        exact ⟨rfl, t.trips[i], Array.getElem_mem hi, by simpa using hid⟩

theorem meaning_tripStop {other : Trip} (hother : other ∈ t.trips)
    (hstop : p.stops[position]? = some stop) :
    meaning stations p t position (.tripStop other.id position) = some (some other.id) := by
  simp [meaning, hstop, any_id_of_mem hother]

/-- The first place that means something comes before all others that do. -/
theorem precedes_of_meaning
    (hsorted : (before ++ first :: after).Pairwise fun a b => a.precedes b = true)
    (hbefore : ∀ place ∈ before, meaning stations p t position place = none)
    (hin : place ∈ before ++ first :: after) (hmeans : meaning stations p t position place ≠ none) :
    first.precedes place = true := by
  rcases List.mem_append.mp hin with hin | hin
  · exact absurd (hbefore place hin) hmeans
  rcases List.mem_cons.mp hin with rfl | hin
  · exact place.precedes_refl
  · exact (List.pairwise_cons.mp (List.pairwise_append.mp hsorted).2.1).1 place hin

/-- Of places in their order, the first one that means something at a position means a trip if and
only if any of them does and the trip is not missed. -/
theorem findSome_meaning_iff (hsorted : places.Pairwise fun a b => a.precedes b = true)
    (htrip : trip ∈ t.trips) (hroute : trip.route = p.route)
    (hstop : p.stops[position]? = some stop) :
    (∃ target, places.findSome? (meaning stations p t position) = some target ∧
        (target = none ∨ target = some trip.id)) ↔
      (∃ place ∈ places,
        place.designates trip position stop (stationOf stations stop) = true) ∧
      ¬Shadowed (· ∈ places) t trip position stop (stationOf stations stop) := by
  have hplace : ∀ place : Place, place.designates trip position stop (stationOf stations stop) =
      true ↔ _ := fun _ => designates_iff_meaning htrip hroute hstop
  have hmeaning : ∀ place : Place, place.designates trip position stop (stationOf stations stop) =
      true → meaning stations p t position place ≠ none := by
    intro place hdesignates hnone
    rcases (hplace place).mp hdesignates with h | h <;> rw [hnone] at h <;> cases h
  constructor
  · rintro ⟨target, hfound, htarget⟩
    obtain ⟨before, first, after, rfl, hmeans, hbefore⟩ := List.findSome?_eq_some_iff.mp hfound
    have hdesignates : first.designates trip position stop (stationOf stations stop) = true := by
      rcases htarget with rfl | rfl
      · exact (hplace first).mpr (.inl hmeans)
      · exact (hplace first).mpr (.inr hmeans)
    refine ⟨⟨first, by simp, hdesignates⟩, fun hshadowed => ?_⟩
    -- the name of the earlier trip would have been found before that of the trip
    obtain rfl := hshadowed.byName first (by simp) hdesignates
    obtain ⟨other, hother, hlt, hnamed⟩ := hshadowed.earlier
    have hprecedes := precedes_of_meaning hsorted hbefore hnamed
      (by simp [meaning_tripStop hother hstop])
    exact absurd hlt (Place.le_of_precedes hprecedes).not_gt
  · rintro ⟨⟨place, hin, hdesignates⟩, hnot⟩
    have hsome := (List.findSome?_isSome_iff (f := meaning stations p t position)).mpr
      ⟨place, hin, Option.isSome_iff_ne_none.mpr (hmeaning place hdesignates)⟩
    obtain ⟨target, hfound⟩ := Option.isSome_iff_exists.mp hsome
    refine ⟨target, hfound, ?_⟩
    cases target with
    | none => exact .inl rfl
    | some named =>
      by_contra hother
      obtain ⟨before, first, after, rfl, hmeans, hbefore⟩ := List.findSome?_eq_some_iff.mp hfound
      obtain ⟨rfl, other, hmem, rfl⟩ := meaning_eq_some_some hmeans
      -- what means the trip comes after the name of the other one, hence is its own name
      have hname : ∀ place ∈ before ++ .tripStop other.id position :: after,
          place.designates trip position stop (stationOf stations stop) = true →
          place = .tripStop trip.id position ∧ other.id ≤ trip.id := by
        intro place hin hdesignates
        have hprecedes := precedes_of_meaning hsorted hbefore hin (hmeaning place hdesignates)
        obtain ⟨named, index, rfl⟩ := Place.eq_tripStop_of_precedes hprecedes
        simp only [Place.designates, Bool.and_eq_true, beq_iff_eq] at hdesignates
        obtain ⟨rfl, rfl⟩ := hdesignates
        exact ⟨rfl, Place.le_of_precedes hprecedes⟩
      have hle := (hname place hin hdesignates).2
      have hne : other.id ≠ trip.id := fun heq => hother (.inr (by rw [heq]))
      exact hnot ⟨fun place hin hdesignates => (hname place hin hdesignates).1, other, hmem,
        hle.lt_of_ne hne, by simp⟩

/-! ### One rule -/

variable {near far : Rule → Endpoint} {rule : Rule} {e : RuleEntry}

/-- The entries of a single rule. -/
theorem entriesAt_singleton : entriesAt stations [rule] p t near far position =
    Option.toList ( entry? stations p t position near far rule 0) := by
  unfold entriesAt
  cases hentry : entry? stations p t position near far rule 0 <;> simp [hentry]

/-- They all say what the rule says. -/
theorem map_find_entriesAt_singleton {P : RuleEntry → Bool} {constraint : Constraint} :
    ((entriesAt stations [rule] p t near far position).find? P).map (·.constraint) =
        some constraint ↔
      constraint = rule.constraint ∧
        ∃ e ∈ entriesAt stations [rule] p t near far position, P e = true := by
  rw [entriesAt_singleton]
  cases hentry : entry? stations p t position near far rule 0 with
  | none => simp
  | some e =>
    obtain ⟨-, -, hconstraint, -⟩ := rule_entry hentry
    cases hP : P e with
    | false => simp [hP]
    | true => simpa [hP, hconstraint] using eq_comm

/-- There is an entry about a trip at a position, seen from a trip on the other side, if and only if
both sides mean these trips and the trip at the position is not missed. -/
theorem exists_mem_entriesAt_iff {net : Network} {nearName farName : EndpointName}
    (hnear : Draft.resolve net nearName = .ok (near rule))
    (hfar : Draft.resolve net farName = .ok (far rule)) (other : Trip) (otherPosition : Nat)
    (otherStop : StopId)
    (hat : RuleIndex.At net.patterns net.timetables trip position stop p t) :
    (∃ e ∈ entriesAt (net.stops.map (·.station)) [rule] p t near far position,
      (e.source.designates other otherPosition otherStop
        (stationOf (net.stops.map (·.station)) otherStop) && e.appliesTo trip) = true) ↔
      net.Means nearName trip position stop ∧ net.Means farName other otherPosition otherStop ∧
        ¬net.Shadows nearName trip position stop := by
  simp only [entriesAt_singleton, Option.mem_toList]
  rw [exists_entry_iff_findSome, findSome_meaning_iff (Draft.places_pairwise hnear) hat.mem
      hat.route hat.stop, Draft.designates_iff_means hnear,
    Draft.shadowed_iff_shadows hnear hat.timetable, Endpoint.designates, List.any_eq_true,
    Draft.designates_iff_means hfar, and_assoc, and_comm (a := ¬_)]

end RuleIndex

/-- A network with one rule has the index of what this rule stands for. -/
theorem Draft.build_alone {draft : Draft} {net : Network} {declared : RuleDraft}
    (hbuild : draft.build = .ok net) (halone : draft.rules = [declared]) :
    ∃ rule, resolve net declared.source = .ok rule.source ∧
      resolve net declared.target = .ok rule.target ∧ rule.constraint = declared.constraint ∧
      net.rules =
        some (RuleIndex.build (net.stops.map (·.station)) net.patterns net.timetables [rule]) := by
  obtain ⟨rules, hresolve, hrules⟩ := build_rules hbuild (by simp [halone])
  rw [halone, List.mapM_cons] at hresolve
  obtain ⟨rule, hrule, hresolve⟩ := bind_eq_ok.mp hresolve
  obtain ⟨source, hsource, hrule⟩ := bind_eq_ok.mp hrule
  obtain ⟨target, htarget, hrule⟩ := bind_eq_ok.mp hrule
  cases hrule
  cases hresolve
  exact ⟨_, hsource, htarget, rfl, hrules⟩

/-- In a network with one rule, the change from a trip at a position to another one is under the
constraint of the rule if and only if some place of its source means the earlier trip there and some
place of its target the later one, and the later trip is not missed. Where the earlier trip is left,
there is an entry about this change if and only if the same holds and the earlier trip is not
missed. -/
theorem constraintBetween_alone {draft : Draft} {net : Network} {declared : RuleDraft}
    (hbuild : draft.build = .ok net) (halone : draft.rules = [declared]) :
    ∃ index, net.rules = some index ∧
      ∀ (source : Trip) (sourcePosition : Nat) (sourceStop : StopId) (p : Pattern) (target : Trip)
        (targetPosition : Nat) (targetStop : StopId) (q : Pattern),
        net.Visits source sourcePosition sourceStop p → p.canAlight sourcePosition = .ok true →
        net.Visits target targetPosition targetStop q → q.canBoard targetPosition = .ok true →
        (∀ constraint,
          index.constraintBetween source sourcePosition sourceStop target targetPosition =
              some constraint ↔
            constraint = declared.constraint ∧
            net.Means declared.source source sourcePosition sourceStop ∧
            net.Means declared.target target targetPosition targetStop ∧
            ¬net.Shadows declared.target target targetPosition targetStop) ∧
        ((∃ entries, index.reverse[source.pattern]? = some entries ∧
            ∃ entry ∈ entries.entriesAt sourcePosition, entry.appliesTo source = true ∧
              entry.source.designates target targetPosition targetStop
                (net.stationAt targetStop) = true) ↔
          net.Means declared.source source sourcePosition sourceStop ∧
          net.Means declared.target target targetPosition targetStop ∧
          ¬net.Shadows declared.source source sourcePosition sourceStop) := by
  obtain ⟨rule, hsourceName, htargetName, hconstraint, hrules⟩ := Draft.build_alone hbuild halone
  have hnet := Draft.build_sound hbuild
  refine ⟨_, hrules, ?_⟩
  intro source sourcePosition sourceStop p target targetPosition targetStop q hsource halights
    htarget hboards
  obtain ⟨t, hfirst⟩ := hsource.at hnet
  obtain ⟨u, hsecond⟩ := htarget.at hnet
  have hposition := (Array.getElem?_eq_some_iff.mp htarget.stop).1
  have hsourcePosition := (Array.getElem?_eq_some_iff.mp hsource.stop).1
  constructor
  · intro constraint
    have hentries := RuleIndex.exists_mem_entriesAt_iff htargetName hsourceName source
      sourcePosition sourceStop hsecond
    rw [RuleIndex.constraintBetween_eq
        (RuleIndex.getElem?_entries hsecond.pattern hsecond.timetable).1,
      RuleIndex.entriesAt_patternRules (d := .forward) hposition hboards, ← hconstraint]
    refine RuleIndex.map_find_entriesAt_singleton.trans (and_congr_right fun _ => ?_)
    refine hentries.trans ?_
    tauto
  · have hentries := RuleIndex.exists_mem_entriesAt_iff hsourceName htargetName target
      targetPosition targetStop hfirst
    rw [(RuleIndex.getElem?_entries hfirst.pattern hfirst.timetable).2, ← hentries]
    simp only [Option.some.injEq, exists_eq_left']
    rw [RuleIndex.entriesAt_patternRules (d := .reverse) hsourcePosition halights]
    simp only [Bool.and_eq_true, Network.stationOf_map_station, and_comm]

/-- The two lines with a rule about the change from red to either of the blue trips. -/
def eitherBlue : Draft :=
  { twoLines with
    rules := [⟨.tripStop "red 1" 1, .anyOf [.tripStop "blue 1" 0, .tripStop "blue 2" 0],
      .guaranteed⟩] }

/-- Both blue trips are meant, but the index knows of the first one only. -/
theorem constraintBetween_alone_eitherBlue : ∃ net index red blue blue' p q,
    eitherBlue.build = .ok net ∧ net.rules = some index ∧
    net.Visits red 1 1 p ∧ p.canAlight 1 = .ok true ∧
    net.Visits blue 0 2 q ∧ net.Visits blue' 0 2 q ∧ q.canBoard 0 = .ok true ∧
    net.Means (.anyOf [.tripStop "blue 1" 0, .tripStop "blue 2" 0]) blue 0 2 ∧
    net.Means (.anyOf [.tripStop "blue 1" 0, .tripStop "blue 2" 0]) blue' 0 2 ∧
    index.constraintBetween red 1 1 blue 0 = some .guaranteed ∧
    index.constraintBetween red 1 1 blue' 0 = none := by
  have hbuilds : eitherBlue.builds (fun net =>
      decide (∃ red ∈ net.trip? "red 1", ∃ p ∈ net.patterns[0]?,
        net.Visits red 1 1 p ∧ p.canAlight 1 = .ok true) &&
      decide (∃ blue ∈ net.trip? "blue 1", ∃ blue' ∈ net.trip? "blue 2", ∃ q ∈ net.patterns[1]?,
        ∃ t ∈ net.timetables[blue.pattern]?,
          (net.Visits blue 0 2 q ∧ net.Visits blue' 0 2 q ∧ q.canBoard 0 = .ok true) ∧
          blue'.pattern = blue.pattern ∧ blue ∈ t.trips ∧ blue.id < blue'.id ∧
          ∀ other ∈ t.trips, ¬other.id < blue.id)) = true := by
    decide +kernel
  obtain ⟨net, hbuild, hfacts⟩ := Draft.exists_of_builds hbuilds
  rw [Bool.and_eq_true, decide_eq_true_eq, decide_eq_true_eq] at hfacts
  obtain ⟨⟨red, hred, p, -, hredAt, halights⟩, blue, hblue, blue', hblue', q, -, t, ht,
    ⟨hblueAt, hblueAt', hboards⟩, hpattern, hmem, hlt, hfirst⟩ := hfacts
  obtain ⟨index, hindex, hanswers⟩ := constraintBetween_alone hbuild rfl
  obtain ⟨hanswer, -⟩ := hanswers _ _ _ _ _ _ _ _ hredAt halights hblueAt hboards
  obtain ⟨hanswer', -⟩ := hanswers _ _ _ _ _ _ _ _ hredAt halights hblueAt' hboards
  have hmeans : net.Means (.tripStop "red 1" 1) red 1 1 :=
    Network.means_of_tripStop (by simp [EndpointName.members]) hred
  have hmeansBlue : net.Means (.anyOf [.tripStop "blue 1" 0, .tripStop "blue 2" 0]) blue 0 2 :=
    Network.means_of_tripStop (by simp [EndpointName.members]) hblue
  have hmeansBlue' : net.Means (.anyOf [.tripStop "blue 1" 0, .tripStop "blue 2" 0]) blue' 0 2 :=
    Network.means_of_tripStop (by simp [EndpointName.members]) hblue'
  have hshown : ¬net.Shadows (.anyOf [.tripStop "blue 1" 0, .tripStop "blue 2" 0]) blue 0 2 := by
    rintro ⟨t', ht', -, other, hother, hless, -⟩
    cases ht.symm.trans ht'
    exact hfirst other hother hless
  have hmissed : net.Shadows (.anyOf [.tripStop "blue 1" 0, .tripStop "blue 2" 0]) blue' 0 2 := by
    refine ⟨t, hpattern ▸ ht, ?_, blue, hmem, hlt, _, List.mem_cons_self,
      Draft.resolve_tripStop hblue⟩
    rintro place ⟨member, hmember, hresolve⟩ hdesignates
    rcases List.mem_cons.mp hmember with rfl | hmember
    · rw [Draft.resolve_tripStop hblue] at hresolve
      cases hresolve
      simp only [Place.designates, Bool.and_eq_true, beq_iff_eq] at hdesignates
      exact absurd hdesignates.1 hlt.ne
    · obtain rfl := List.mem_singleton.mp hmember
      rw [Draft.resolve_tripStop hblue'] at hresolve
      cases hresolve
      rfl
  refine ⟨net, index, red, blue, blue', p, q, hbuild, hindex, hredAt, halights, hblueAt, hblueAt',
    hboards, hmeansBlue, hmeansBlue',
    (hanswer .guaranteed).mpr ⟨rfl, hmeans, hmeansBlue, hshown⟩, ?_⟩
  rw [Option.eq_none_iff_forall_ne_some]
  exact fun constraint hfound => ((hanswer' constraint).mp hfound).2.2.2 hmissed

end JourneyPlanner
