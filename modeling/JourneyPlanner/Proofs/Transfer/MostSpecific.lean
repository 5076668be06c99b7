import JourneyPlanner.Proofs.Network.Built
import JourneyPlanner.Proofs.Transfer.Rulings

/-!
# The most specific rule wins

Of the rules declared about a change, the most specific one says what holds, and of equally specific
ones the first. It is found where the later trip is boarded, and as well where the earlier trip is
left.

* `EndpointName.IsPlain`: an endpoint that is no choice with a position of a trip in it.
* `Draft.build_rules`: the rules of a network are those declared, in their order.
* `Network.Concerns`: a rule is about a change.
* `constraintBetween_mostSpecific`: what the index answers about a change, from either side.
-/

namespace JourneyPlanner

/-- Whether a rule decides is found by going through all of them. -/
instance Decides.decidable (rules : List Rule) (Q : Rule → Prop) [DecidablePred Q] (number : Nat)
    (rule : Rule) : Decidable (Decides rules Q number rule) :=
  decidable_of_iff (rules[number]? = some rule ∧ Q rule ∧ ∀ numbered ∈ rules.zipIdx,
      Q numbered.1 → numbered.1.ranking < rule.ranking ∨
        (numbered.1.ranking = rule.ranking ∧ number ≤ numbered.2))
    ⟨fun ⟨hdeclared, happlies, hleast⟩ => ⟨hdeclared, happlies, fun number' rule' h =>
        hleast (rule', number') (List.mem_zipIdx_iff_getElem?.mpr h)⟩,
      fun h => ⟨h.declared, h.applies, fun (rule', number') hin =>
        h.least number' rule' (List.mem_zipIdx_iff_getElem?.mp hin)⟩⟩

/-! ### Declared rules -/

/-- A name of an endpoint that is no choice with a position of a trip in it. -/
def EndpointName.IsPlain : EndpointName → Prop
  | .anyOf members => ∀ trip position, .tripStop trip position ∉ members
  | _ => True

namespace Endpoint

theorem mem_of_mem_arrange {places : List Place} {place : Place} (h : place ∈ arrange places) :
    place ∈ places := by
  refine List.mem_mergeSort.mp (?_ : place ∈ places.mergeSort Place.precedes)
  rw [arrange] at h
  generalize places.mergeSort Place.precedes = sorted at h ⊢
  induction sorted with
  | nil => exact h
  | cons first rest ih =>
    simp only [List.foldr_cons] at h
    split at h
    · exact List.mem_cons_of_mem _ (ih h)
    · rcases List.mem_cons.mp h with rfl | h
      · exact List.mem_cons_self
      · exact List.mem_cons_of_mem _ (ih h)

/-- A choice between single places none of which is a position of a trip. -/
theorem not_isMixed_of_choose {members : List Endpoint} {endpoint : Endpoint}
    (hmembers : ∀ trip position, .one (.tripStop trip position) ∉ members)
    (h : choose members = .ok endpoint) : ¬endpoint.IsMixed := by
  unfold choose at h
  split at h
  · cases h
  · rename_i hsingle
    obtain rfl := Except.ok.inj h
    rintro ⟨places, heq, trip, position, hplace⟩
    obtain rfl := Endpoint.anyOf.inj heq
    obtain ⟨member, hmember, hin⟩ := List.mem_flatMap.mp (mem_of_mem_arrange hplace)
    cases member with
    | one place =>
      obtain rfl := List.mem_singleton.mp hin
      exact hmembers trip position hmember
    | anyOf places => exact hsingle (List.any_eq_true.mpr ⟨_, hmember, rfl⟩)

end Endpoint

namespace Draft

variable {draft : Draft} {net : Network} {name : EndpointName} {names : List EndpointName}
  {endpoint : Endpoint} {endpoints : List Endpoint}

mutual

/-- The rules of a network do not matter to what a name stands for. -/
theorem resolve_withRules (rules : Option RuleIndex) :
    ∀ name, resolve { net with rules } name = resolve net name
  | .stop _ => rfl
  | .station _ => rfl
  | .routeStop .. => rfl
  | .tripStop .. => rfl
  | .anyOf members => by rw [resolve, resolve, resolveAll_withRules rules members]

theorem resolveAll_withRules (rules : Option RuleIndex) :
    ∀ names, resolveAll { net with rules } names = resolveAll net names
  | [] => rfl
  | name :: rest => by
    rw [resolveAll, resolveAll, resolve_withRules rules name, resolveAll_withRules rules rest]

end

theorem resolveRule_withRules (rules : Option RuleIndex) :
    resolveRule { net with rules } = resolveRule net := by
  funext rule
  simp only [resolveRule, resolve_withRules]

/-- The rules of a network are those declared, in their order. -/
theorem build_rules (hbuild : draft.build = .ok net) (hdeclared : draft.rules ≠ []) :
    ∃ rules, draft.rules.mapM (resolveRule net) = .ok rules ∧ net.rules =
      some (RuleIndex.build (net.stops.map (·.station)) net.patterns net.timetables rules) := by
  obtain ⟨plain, -, hbuild⟩ := bind_eq_ok.mp hbuild
  have hempty : draft.rules.isEmpty = false := by
    rw [List.isEmpty_eq_false_iff]
    exact hdeclared
  simp only [hempty, Bool.false_eq_true, if_false] at hbuild
  obtain ⟨rules, hrules, hbuild⟩ := bind_eq_ok.mp hbuild
  obtain rfl := Except.ok.inj hbuild
  refine ⟨rules, ?_, rfl⟩
  rw [resolveRule_withRules]
  exact hrules

/-- The only names that stand for a position of a trip are those that say so. -/
theorem resolve_eq_tripStop {trip : TripId} {position : Nat}
    (h : resolve net name = .ok (.one (.tripStop trip position))) :
    ∃ tripName, name = .tripStop tripName position := by
  cases name with
  | stop stop =>
    obtain ⟨_, -, h⟩ := bind_eq_ok.mp h
    cases h
  | station station =>
    obtain ⟨_, -, h⟩ := bind_eq_ok.mp h
    cases h
  | routeStop route stop =>
    obtain ⟨_, -, h⟩ := bind_eq_ok.mp h
    obtain ⟨_, -, h⟩ := bind_eq_ok.mp h
    cases h
  | tripStop tripName position' =>
    obtain ⟨_, -, h⟩ := bind_eq_ok.mp h
    cases h
    exact ⟨tripName, rfl⟩
  | anyOf members =>
    rw [resolve] at h
    obtain ⟨endpoints, -, h⟩ := bind_eq_ok.mp h
    unfold Endpoint.choose at h
    split at h <;> cases h

theorem exists_of_mem_resolveAll (h : resolveAll net names = .ok endpoints)
    (hendpoint : endpoint ∈ endpoints) : ∃ name ∈ names, resolve net name = .ok endpoint := by
  induction names generalizing endpoints with
  | nil =>
    rw [resolveAll] at h
    cases h
    cases hendpoint
  | cons first rest ih =>
    rw [resolveAll] at h
    obtain ⟨resolved, hfirst, h⟩ := bind_eq_ok.mp h
    obtain ⟨others, hrest, h⟩ := bind_eq_ok.mp h
    cases h
    rcases List.mem_cons.mp hendpoint with rfl | hendpoint
    · exact ⟨first, List.mem_cons_self, hfirst⟩
    · obtain ⟨name, hname, hresolve⟩ := ih hrest hendpoint
      exact ⟨name, List.mem_cons_of_mem _ hname, hresolve⟩

/-- A plain name stands for an endpoint that is not mixed. -/
theorem not_isMixed_of_resolve (hplain : name.IsPlain) (h : resolve net name = .ok endpoint) :
    ¬endpoint.IsMixed := by
  cases name with
  | anyOf members =>
    rw [resolve] at h
    obtain ⟨endpoints, hmembers, h⟩ := bind_eq_ok.mp h
    cases hchoose : Endpoint.choose endpoints with
    | error fault =>
      rw [hchoose] at h
      cases h
    | ok choice =>
      rw [hchoose] at h
      obtain rfl := Except.ok.inj h
      refine Endpoint.not_isMixed_of_choose (fun trip position hmem => ?_) hchoose
      obtain ⟨name, hname, hresolve⟩ := exists_of_mem_resolveAll hmembers hmem
      obtain ⟨tripName, rfl⟩ := resolve_eq_tripStop hresolve
      exact hplain tripName position hname
  | stop stop =>
    obtain ⟨_, -, h⟩ := bind_eq_ok.mp h
    cases h
    rintro ⟨_, heq, -⟩
    cases heq
  | station station =>
    obtain ⟨_, -, h⟩ := bind_eq_ok.mp h
    cases h
    rintro ⟨_, heq, -⟩
    cases heq
  | routeStop route stop =>
    obtain ⟨_, -, h⟩ := bind_eq_ok.mp h
    obtain ⟨_, -, h⟩ := bind_eq_ok.mp h
    cases h
    rintro ⟨_, heq, -⟩
    cases heq
  | tripStop trip position =>
    obtain ⟨_, -, h⟩ := bind_eq_ok.mp h
    cases h
    rintro ⟨_, heq, -⟩
    cases heq

/-- Rules declared by plain names have no mixed side. -/
theorem not_isMixed_of_rules {rules : List Rule}
    (hplain : ∀ rule ∈ draft.rules, rule.source.IsPlain ∧ rule.target.IsPlain)
    (h : draft.rules.mapM (resolveRule net) = .ok rules) :
    ∀ rule ∈ rules, ¬rule.source.IsMixed ∧ ¬rule.target.IsMixed := by
  intro rule hrule
  obtain ⟨declared, hdeclared, hresolve⟩ := exists_of_mem_mapM h hrule
  obtain ⟨source, hsource, hresolve⟩ := bind_eq_ok.mp hresolve
  obtain ⟨target, htarget, hresolve⟩ := bind_eq_ok.mp hresolve
  cases hresolve
  obtain ⟨hplainSource, hplainTarget⟩ := hplain declared hdeclared
  exact ⟨not_isMixed_of_resolve hplainSource hsource, not_isMixed_of_resolve hplainTarget htarget⟩

end Draft

/-! ### Changes -/

namespace Network

def stationAt (net : Network) (stop : StopId) : Option StationId :=
  net.stops[stop]?.bind (·.station)

theorem stationOf_map_station {net : Network} (stop : StopId) :
    stationOf (net.stops.map (·.station)) stop = net.stationAt stop := by
  rw [stationOf, stationAt, Array.getD_eq_getD_getElem?, Array.getElem?_map]
  cases net.stops[stop]? <;> rfl

/-- A trip of the network is at a stop, at a position of its pattern. -/
structure Visits (net : Network) (trip : Trip) (position : Nat) (stop : StopId) (p : Pattern) :
    Prop where
  pattern : net.patterns[trip.pattern]? = some p
  mem : ∃ t ∈ net.timetables[trip.pattern]?, trip ∈ t.trips
  stop : p.stops[position]? = some stop

instance Visits.decidable (net : Network) (trip : Trip) (position : Nat) (stop : StopId)
    (p : Pattern) : Decidable (net.Visits trip position stop p) :=
  decidable_of_iff (net.patterns[trip.pattern]? = some p ∧
      (∃ t ∈ net.timetables[trip.pattern]?, trip ∈ t.trips) ∧ p.stops[position]? = some stop)
    ⟨fun ⟨hp, hmem, hstop⟩ => ⟨hp, hmem, hstop⟩, fun h => ⟨h.pattern, h.mem, h.stop⟩⟩

/-- A rule is about the change from a trip at a position to another one. -/
def Concerns (net : Network) (source : Trip) (sourcePosition : Nat) (sourceStop : StopId)
    (target : Trip) (targetPosition : Nat) (targetStop : StopId) (rule : Rule) : Prop :=
  rule.source.designates source sourcePosition sourceStop (net.stationAt sourceStop) = true ∧
    rule.target.designates target targetPosition targetStop (net.stationAt targetStop) = true

instance Concerns.decidable (net : Network) (source : Trip) (sourcePosition : Nat)
    (sourceStop : StopId) (target : Trip) (targetPosition : Nat) (targetStop : StopId) :
    DecidablePred
      (net.Concerns source sourcePosition sourceStop target targetPosition targetStop) :=
  fun _ => inferInstanceAs (Decidable (_ ∧ _))

theorem concerns_iff {net : Network} {source target : Trip} {sourcePosition targetPosition : Nat}
    {sourceStop targetStop : StopId} {rule : Rule} :
    net.Concerns source sourcePosition sourceStop target targetPosition targetStop rule ↔
      rule.source.designates source sourcePosition sourceStop
          (stationOf (net.stops.map (·.station)) sourceStop) = true ∧
        rule.target.designates target targetPosition targetStop
          (stationOf (net.stops.map (·.station)) targetStop) = true := by
  rw [stationOf_map_station, stationOf_map_station, Concerns]

section

variable {net : Network} {source target : Trip} {sourcePosition targetPosition : Nat}
  {sourceStop targetStop : StopId} {p : Pattern} {t : Timetable} {rule : Rule}

variable (source sourcePosition sourceStop) in
/-- A rule is about a change if and only if its entry where the later trip is boarded is. -/
theorem concerns_iff_entry_boarded (hmixed : ¬rule.target.IsMixed)
    (htarget : RuleIndex.At net.patterns net.timetables target targetPosition targetStop p t)
    (number : Nat) :
    net.Concerns source sourcePosition sourceStop target targetPosition targetStop rule ↔
      ∃ e, RuleIndex.entry? (net.stops.map (·.station)) p t targetPosition Rule.target Rule.source
          rule number = some e ∧
        (e.source.designates source sourcePosition sourceStop
          (stationOf (net.stops.map (·.station)) sourceStop) && e.appliesTo target) = true := by
  rw [concerns_iff, and_comm]
  exact (RuleIndex.exists_entry_iff hmixed htarget.mem htarget.route htarget.stop).symm

variable (target targetPosition targetStop) in
/-- A rule is about a change if and only if its entry where the earlier trip is left is. -/
theorem concerns_iff_entry_left (hmixed : ¬rule.source.IsMixed)
    (hsource : RuleIndex.At net.patterns net.timetables source sourcePosition sourceStop p t)
    (number : Nat) :
    net.Concerns source sourcePosition sourceStop target targetPosition targetStop rule ↔
      ∃ e, RuleIndex.entry? (net.stops.map (·.station)) p t sourcePosition Rule.source Rule.target
          rule number = some e ∧
        (e.source.designates target targetPosition targetStop
          (stationOf (net.stops.map (·.station)) targetStop) && e.appliesTo source) = true := by
  rw [concerns_iff]
  exact (RuleIndex.exists_entry_iff hmixed hsource.mem hsource.route hsource.stop).symm

end

theorem Visits.at {net : Network} {trip : Trip} {position : Nat} {stop : StopId} {p : Pattern}
    (hnet : net.Sound) (h : net.Visits trip position stop p) :
    ∃ t, RuleIndex.At net.patterns net.timetables trip position stop p t := by
  obtain ⟨t, ht, hmem⟩ := h.mem
  obtain ⟨rank, hrank⟩ := Array.mem_iff_getElem?.mp hmem
  exact ⟨t, h.pattern, ht, hmem, hnet.trip_route h.pattern ht hrank, h.stop⟩

end Network

namespace RuleIndex

variable {stations : Array (Option StationId)} {rules : List Rule} {p : Pattern} {t : Timetable}
  {near far : Rule → Endpoint} {position : Nat} {P : RuleEntry → Bool} {Q : Rule → Prop}

/-- The first entry about leaving a trip at a position for another one: what a search that goes back
in time finds where it boards the earlier trip. -/
def entryBefore? (index : RuleIndex) (source : Trip) (sourcePosition : Nat) (target : Trip)
    (targetPosition : Nat) (targetStop : StopId) : Option RuleEntry := do
  let rules ← index.reverse[source.pattern]?
  let station := stationOf index.stations targetStop
  (rules.entriesAt sourcePosition).find? fun entry =>
    entry.appliesTo source && entry.source.designates target targetPosition targetStop station

/-- What the first entry with a property says is what the deciding rule says. -/
theorem map_find_entriesAt_iff
    (hQ : ∀ rule ∈ rules, ∀ number, Q rule ↔
      ∃ e, entry? stations p t position near far rule number = some e ∧ P e = true)
    (constraint : Constraint) :
    ((entriesAt stations rules p t near far position).find? P).map (·.constraint) =
        some constraint ↔
      ∃ number rule, Decides rules Q number rule ∧ rule.constraint = constraint := by
  have h := find_entriesAt hQ
  cases hfind : (entriesAt stations rules p t near far position).find? P with
  | none =>
    rw [hfind] at h
    constructor
    · intro hnone
      cases hnone
    · rintro ⟨number, rule, hdecides, -⟩
      exact absurd hdecides.applies (h rule (List.mem_of_getElem? hdecides.declared))
  | some e =>
    rw [hfind] at h
    obtain ⟨number, rule, hconstraint, hdecides⟩ := h
    rw [Option.map_some, Option.some.injEq, hconstraint]
    constructor
    · rintro rfl
      exact ⟨number, rule, hdecides, rfl⟩
    · rintro ⟨number', rule', hdecides', rfl⟩
      rw [hdecides.unique hdecides']

/-- There is no entry with a property if and only if no rule has it. -/
theorem find_entriesAt_eq_none_iff
    (hQ : ∀ rule ∈ rules, ∀ number, Q rule ↔
      ∃ e, entry? stations p t position near far rule number = some e ∧ P e = true) :
    (entriesAt stations rules p t near far position).find? P = none ↔ ∀ rule ∈ rules, ¬Q rule := by
  have h := find_entriesAt hQ
  cases hfind : (entriesAt stations rules p t near far position).find? P with
  | none =>
    rw [hfind] at h
    exact ⟨fun _ => h, fun _ => rfl⟩
  | some e =>
    rw [hfind] at h
    obtain ⟨number, rule, -, hdecides⟩ := h
    constructor
    · intro hnone
      cases hnone
    · intro hnever
      exact absurd hdecides.applies (hnever rule (List.mem_of_getElem? hdecides.declared))

theorem entryBefore?_eq {index : RuleIndex} {found : PatternRules} {source target : Trip}
    {sourcePosition targetPosition : Nat} {targetStop : StopId}
    (h : index.reverse[source.pattern]? = some found) :
    index.entryBefore? source sourcePosition target targetPosition targetStop =
      (found.entriesAt sourcePosition).find? fun entry =>
        entry.source.designates target targetPosition targetStop
          (stationOf index.stations targetStop) && entry.appliesTo source := by
  unfold entryBefore?
  simp only [h, Option.bind_eq_bind, Option.bind_some, Bool.and_comm]

end RuleIndex

/-- Of the rules about a change, the most specific one says what holds, the first of those that are
equally specific. Nothing is said when no rule is about the change. The entries where the earlier
trip is left say the same. -/
theorem constraintBetween_mostSpecific {draft : Draft} {net : Network}
    (hbuild : draft.build = .ok net) (hdeclared : draft.rules ≠ [])
    (hplain : ∀ rule ∈ draft.rules, rule.source.IsPlain ∧ rule.target.IsPlain) :
    ∃ index, net.rules = some index ∧
      draft.rules.mapM (Draft.resolveRule net) = .ok index.rules ∧
      ∀ (source : Trip) (sourcePosition : Nat) (sourceStop : StopId) (p : Pattern) (target : Trip)
        (targetPosition : Nat) (targetStop : StopId) (q : Pattern),
        net.Visits source sourcePosition sourceStop p → p.canAlight sourcePosition = .ok true →
        net.Visits target targetPosition targetStop q → q.canBoard targetPosition = .ok true →
        (∀ constraint,
          index.constraintBetween source sourcePosition sourceStop target targetPosition =
              some constraint ↔
            ∃ number rule, Decides index.rules (net.Concerns source sourcePosition sourceStop target
              targetPosition targetStop) number rule ∧ rule.constraint = constraint) ∧
        (index.constraintBetween source sourcePosition sourceStop target targetPosition = none ↔
          ∀ rule ∈ index.rules, ¬net.Concerns source sourcePosition sourceStop target
            targetPosition targetStop rule) ∧
        (index.entryBefore? source sourcePosition target targetPosition targetStop).map
            (·.constraint) =
          index.constraintBetween source sourcePosition sourceStop target targetPosition := by
  obtain ⟨rules, hresolve, hrules⟩ := Draft.build_rules hbuild hdeclared
  have hnet := Draft.build_sound hbuild
  have hmixed := Draft.not_isMixed_of_rules hplain hresolve
  refine ⟨_, hrules, hresolve, ?_⟩
  intro source sourcePosition sourceStop p target targetPosition targetStop q hsource halights
    htarget hboards
  obtain ⟨t, hfirst⟩ := hsource.at hnet
  obtain ⟨u, hsecond⟩ := htarget.at hnet
  have hposition := (Array.getElem?_eq_some_iff.mp htarget.stop).1
  have hsourcePosition := (Array.getElem?_eq_some_iff.mp hsource.stop).1
  rw [RuleIndex.constraintBetween_eq
      (RuleIndex.getElem?_entries hsecond.pattern hsecond.timetable).1,
    RuleIndex.entryBefore?_eq (RuleIndex.getElem?_entries hfirst.pattern hfirst.timetable).2,
    RuleIndex.entriesAt_patternRules (d := .forward) hposition hboards,
    RuleIndex.entriesAt_patternRules (d := .reverse) hsourcePosition halights]
  -- the entries on either side stand for the rules about the change
  have hboarded := fun rule hrule =>
    Network.concerns_iff_entry_boarded source sourcePosition sourceStop (hmixed rule hrule).2
      hsecond
  have hleft := fun rule hrule =>
    Network.concerns_iff_entry_left target targetPosition targetStop (hmixed rule hrule).1 hfirst
  refine ⟨RuleIndex.map_find_entriesAt_iff hboarded, ?_,
    RuleIndex.map_find_entriesAt_eq hleft hboarded⟩
  rw [Option.map_eq_none_iff]
  exact RuleIndex.find_entriesAt_eq_none_iff hboarded

/-- The two lines with three rules about the change from red to blue. The first one is about all
trips, the others about the first trips of the lines. -/
def ruledLines : Draft :=
  { twoLines with
    rules := [
      ⟨.stop "B", .stop "C", .notAllowed⟩,
      ⟨.tripStop "red 1" 1, .tripStop "blue 1" 0, .guaranteed⟩,
      ⟨.tripStop "red 1" 1, .tripStop "blue 1" 0, .staySeated⟩] }

/-- All three rules are about the first trips of the lines. The second rule decides. -/
theorem constraintBetween_mostSpecific_ruledLines : ∃ net index red blue p q,
    ruledLines.build = .ok net ∧ ruledLines.rules ≠ [] ∧
    (∀ rule ∈ ruledLines.rules, rule.source.IsPlain ∧ rule.target.IsPlain) ∧
    net.rules = some index ∧ index.rules.length = 3 ∧
    (∀ rule ∈ index.rules, net.Concerns red 1 1 blue 0 2 rule) ∧
    net.Visits red 1 1 p ∧ p.canAlight 1 = .ok true ∧
    net.Visits blue 0 2 q ∧ q.canBoard 0 = .ok true ∧
    index.constraintBetween red 1 1 blue 0 = some .guaranteed ∧
    (index.entryBefore? red 1 blue 0 2).map (·.constraint) = some .guaranteed := by
  have hbuilds : ruledLines.builds (fun net => decide (∃ red ∈ net.trip? "red 1",
      ∃ blue ∈ net.trip? "blue 1", ∃ p ∈ net.patterns[0]?, ∃ q ∈ net.patterns[1]?,
      ∃ index ∈ net.rules, index.rules.length = 3 ∧
        (∀ rule ∈ index.rules, net.Concerns red 1 1 blue 0 2 rule) ∧
        (net.Visits red 1 1 p ∧ p.canAlight 1 = .ok true) ∧
        (net.Visits blue 0 2 q ∧ q.canBoard 0 = .ok true) ∧
        ∃ rule ∈ index.rules, Decides index.rules (net.Concerns red 1 1 blue 0 2) 1 rule ∧
          rule.constraint = .guaranteed)) = true := by
    decide +kernel
  obtain ⟨net, hbuild, hfacts⟩ := Draft.exists_of_builds hbuilds
  obtain ⟨red, -, blue, -, p, -, q, -, index, hindex, hcount, hconcerns, ⟨hred, halights⟩,
    ⟨hblue, hboards⟩, rule, -, hdecides⟩ := of_decide_eq_true hfacts
  have hdeclared : ruledLines.rules ≠ [] := List.cons_ne_nil _ _
  have hplain : ∀ rule ∈ ruledLines.rules, rule.source.IsPlain ∧ rule.target.IsPlain := by
    simp [ruledLines, EndpointName.IsPlain]
  obtain ⟨index', hindex', -, hrules⟩ := constraintBetween_mostSpecific hbuild hdeclared hplain
  obtain rfl : index = index' := Option.some.inj (hindex.symm.trans hindex')
  obtain ⟨hanswer, -, hbefore⟩ := hrules _ _ _ _ _ _ _ _ hred halights hblue hboards
  have hguaranteed := (hanswer .guaranteed).mpr ⟨1, rule, hdecides⟩
  exact ⟨net, index, red, blue, p, q, hbuild, hdeclared, hplain, hindex, hcount, hconcerns, hred,
    halights, hblue, hboards, hguaranteed, hbefore.trans hguaranteed⟩

end JourneyPlanner
