import JourneyPlanner.Proofs.Transfer.Boarding

/-!
# The rule that decides on a change

Of the rules about a change the most specific one decides, and of equally specific rules the one
that was declared first. The index finds it from either side of the change, except that it may miss
a rule one of whose sides is a choice that names a position of a trip.

* `RuleIndex.find_entriesAt`: the first entry with a property is that of the rule that decides.
* `Endpoint.IsMixed`: a choice that names a position of a trip.
* `Decides`: the rule that decides, among those with a property.
* `RuleSearch.ruling_forward`, `RuleSearch.ruling_reverse`: what a search finds is what the rules
  say.
-/

namespace JourneyPlanner

/-- A choice between places that names a position of a trip. -/
def Endpoint.IsMixed (endpoint : Endpoint) : Prop :=
  ∃ places, endpoint = .anyOf places ∧ ∃ trip position, .tripStop trip position ∈ places

/-- The rule that decides among those with a property: the most specific one, and the first of those
that are equally specific. -/
structure Decides (rules : List Rule) (Q : Rule → Prop) (number : Nat) (rule : Rule) : Prop where
  declared : rules[number]? = some rule
  applies : Q rule
  least : ∀ number' rule', rules[number']? = some rule' → Q rule' →
    rule'.ranking < rule.ranking ∨ (rule'.ranking = rule.ranking ∧ number ≤ number')

theorem Decides.unique {rules : List Rule} {Q : Rule → Prop} {number number' : Nat}
    {rule rule' : Rule} (h : Decides rules Q number rule) (h' : Decides rules Q number' rule') :
    rule = rule' := by
  have hle := h.least number' rule' h'.declared h'.applies
  have hge := h'.least number rule h.declared h.applies
  obtain rfl : number = number' := by omega
  exact Option.some.inj (h.declared.symm.trans h'.declared)

namespace RuleIndex

variable {stations : Array (Option StationId)} {rules : List Rule} {p : Pattern} {t : Timetable}
  {near far : Rule → Endpoint} {position : Nat} {P : RuleEntry → Bool} {Q : Rule → Prop}

/-! ### The order of entries -/

theorem precedes_trans (a b c : RuleEntry) (hab : precedes a b = true) (hbc : precedes b c = true) :
    precedes a c = true := by
  simp only [precedes, decide_eq_true_eq] at *
  exact hbc.trans hab

theorem precedes_total (a b : RuleEntry) : (precedes a b || precedes b a) = true := by
  simp only [precedes, Bool.or_eq_true, decide_eq_true_eq]
  exact Nat.le_total _ _

/-- An entry found in sorted entries comes before all others with the property. -/
theorem find_mergeSort {entries : List RuleEntry} {e : RuleEntry}
    (hentries : entries.Pairwise fun a b => a.rule < b.rule)
    (hfind : (entries.mergeSort precedes).find? P = some e) :
    e ∈ entries ∧ P e = true ∧ ∀ e' ∈ entries, P e' = true →
      e'.specificity < e.specificity ∨ (e'.specificity = e.specificity ∧ e.rule ≤ e'.rule) := by
  obtain ⟨hP, before, after, hsplit, hbefore⟩ := List.find?_eq_some_iff_append.mp hfind
  have hmem : e ∈ entries := by
    refine List.mem_mergeSort.mp (?_ : e ∈ entries.mergeSort precedes)
    rw [hsplit]
    simp
  have hsorted := List.pairwise_mergeSort precedes_trans precedes_total entries
  have hnodup : (entries.mergeSort precedes).Nodup := by
    rw [(List.mergeSort_perm _ _).nodup_iff]
    exact hentries.imp fun {a b} hlt heq => by rw [heq] at hlt; omega
  rw [hsplit] at hsorted hnodup
  refine ⟨hmem, hP, fun e' he' hP' => ?_⟩
  -- an entry with the property is not found before
  have hafter : e' = e ∨ e' ∈ after := by
    have : e' ∈ before ++ e :: after := by
      rw [← hsplit]
      exact List.mem_mergeSort.mpr he'
    rcases List.mem_append.mp this with hin | hin
    · have := hbefore e' hin
      simp [hP'] at this
    · exact List.mem_cons.mp hin
  rcases hafter with rfl | hafter
  · exact .inr ⟨rfl, le_rfl⟩
  · have hle : e'.specificity ≤ e.specificity := by
      have := (List.pairwise_cons.mp (List.pairwise_append.mp hsorted).2.1).1 e' hafter
      simpa [precedes] using this
    rcases hle.lt_or_eq with hlt | heq
    · exact .inl hlt
    · refine .inr ⟨heq, Nat.le_of_not_lt fun hlt => ?_⟩
      -- the earlier of two equally specific entries stays in front
      have hpair : [e', e].Sublist entries := by
        obtain ⟨front, back, rfl⟩ := List.append_of_mem he'
        obtain ⟨-, hback, hcross⟩ := List.pairwise_append.mp hentries
        have hin : e ∈ back := by
          rcases List.mem_append.mp hmem with hin | hin
          · exact absurd (hcross e hin e' (by simp)) (by omega)
          · rcases List.mem_cons.mp hin with rfl | hin
            · omega
            · exact hin
        exact ((List.singleton_sublist.mpr hin).cons_cons e').trans (List.sublist_append_right _ _)
      have hstable := List.pair_sublist_mergeSort precedes_trans precedes_total
        (by simp [precedes, heq]) hpair
      rw [hsplit] at hstable
      obtain ⟨front, back, hlist, hfront, hback⟩ := List.sublist_append_iff.mp hstable
      cases front with
      | cons first front =>
        obtain rfl := (List.cons.inj hlist).1
        have := hbefore e' (hfront.subset (by simp))
        simp [hP'] at this
      | nil =>
        obtain rfl : [e', e] = back := hlist
        have hcons := List.nodup_cons.mp (List.nodup_append.mp hnodup).2.1
        cases hback with
        | cons _ hback => exact hcons.1 (hback.subset (by simp))
        | cons_cons => omega

/-! ### Entries and rules -/

theorem rule_entry {rule : Rule} {number : Nat} {e : RuleEntry}
    (h : entry? stations p t position near far rule number = some e) :
    e.rule = number ∧ e.source = far rule ∧ e.constraint = rule.constraint ∧
      e.specificity = rule.ranking := by
  obtain ⟨target, -, rfl⟩ := Option.map_eq_some_iff.mp h
  exact ⟨rfl, rfl, rfl, rfl⟩

/-- The first entry with a property is that of the rule that decides, and there is none if no rule
has the property. -/
theorem find_entriesAt
    (hQ : ∀ rule ∈ rules, ∀ number, Q rule ↔
      ∃ e, entry? stations p t position near far rule number = some e ∧ P e = true) :
    match (entriesAt stations rules p t near far position).find? P with
    | none => ∀ rule ∈ rules, ¬Q rule
    | some e => ∃ number rule, e.constraint = rule.constraint ∧ Decides rules Q number rule := by
  set entries := rules.zipIdx.filterMap fun numbered =>
    entry? stations p t position near far numbered.1 numbered.2 with hentries
  have hmem : ∀ e, e ∈ entries ↔ ∃ number rule, rules[number]? = some rule ∧
      entry? stations p t position near far rule number = some e := by
    intro e
    rw [hentries, List.mem_filterMap]
    constructor
    · rintro ⟨⟨rule, number⟩, hin, he⟩
      exact ⟨number, rule, List.mem_zipIdx_iff_getElem?.mp hin, he⟩
    · rintro ⟨number, rule, hin, he⟩
      exact ⟨(rule, number), List.mem_zipIdx_iff_getElem?.mpr hin, he⟩
  have hpairwise : entries.Pairwise fun a b => a.rule < b.rule := by
    rw [hentries, List.pairwise_filterMap]
    have hnumbers : rules.zipIdx.Pairwise fun a b => a.2 < b.2 := by
      rw [← List.pairwise_map (f := Prod.snd) (R := fun a b => a < b), List.zipIdx_map_snd]
      exact List.pairwise_lt_range'
    refine hnumbers.imp fun {a b} hlt e he e' he' => ?_
    rwa [(rule_entry he).1, (rule_entry he').1]
  have hfound : (entriesAt stations rules p t near far position).find? P =
    (entries.mergeSort precedes).find? P := rfl
  cases hfind : (entries.mergeSort precedes).find? P with
  | none =>
    rw [hfound, hfind]
    intro rule hrule happlies
    obtain ⟨number, hnumber⟩ := List.getElem?_of_mem hrule
    obtain ⟨e, he, hP⟩ := (hQ rule hrule number).mp happlies
    have := List.find?_eq_none.mp hfind e
      (List.mem_mergeSort.mpr ((hmem e).mpr ⟨number, rule, hnumber, he⟩))
    exact this hP
  | some e =>
    rw [hfound, hfind]
    obtain ⟨hin, hP, hleast⟩ := find_mergeSort hpairwise hfind
    obtain ⟨number, rule, hnumber, he⟩ := (hmem e).mp hin
    obtain ⟨hrule, -, hconstraint, hspecificity⟩ := rule_entry he
    refine ⟨number, rule, hconstraint, hnumber,
      (hQ rule (List.mem_of_getElem? hnumber) number).mpr ⟨e, he, hP⟩, ?_⟩
    intro number' rule' hnumber' happlies'
    obtain ⟨e', he', hP'⟩ := (hQ rule' (List.mem_of_getElem? hnumber') number').mp happlies'
    obtain ⟨hrule', -, -, hspecificity'⟩ := rule_entry he'
    have := hleast e' ((hmem e').mpr ⟨number', rule', hnumber', he'⟩) hP'
    rwa [hrule, hrule', hspecificity, hspecificity'] at this

/-- From either side the same constraint is found. -/
theorem map_find_entriesAt_eq {p' : Pattern} {t' : Timetable} {near' far' : Rule → Endpoint}
    {position' : Nat} {P' : RuleEntry → Bool}
    (hQ : ∀ rule ∈ rules, ∀ number, Q rule ↔
      ∃ e, entry? stations p t position near far rule number = some e ∧ P e = true)
    (hQ' : ∀ rule ∈ rules, ∀ number, Q rule ↔
      ∃ e, entry? stations p' t' position' near' far' rule number = some e ∧ P' e = true) :
    ((entriesAt stations rules p t near far position).find? P).map (·.constraint) =
      ((entriesAt stations rules p' t' near' far' position').find? P').map (·.constraint) := by
  have h := find_entriesAt hQ
  have h' := find_entriesAt hQ'
  cases hfind : (entriesAt stations rules p t near far position).find? P with
  | none =>
    rw [hfind] at h
    cases hfind' : (entriesAt stations rules p' t' near' far' position').find? P' with
    | none => rfl
    | some e =>
      rw [hfind'] at h'
      obtain ⟨_, rule, -, hdecides⟩ := h'
      exact absurd hdecides.applies (h rule (List.mem_of_getElem? hdecides.declared))
  | some e =>
    rw [hfind] at h
    obtain ⟨_, rule, hconstraint, hdecides⟩ := h
    cases hfind' : (entriesAt stations rules p' t' near' far' position').find? P' with
    | none =>
      rw [hfind'] at h'
      exact absurd hdecides.applies (h' rule (List.mem_of_getElem? hdecides.declared))
    | some e' =>
      rw [hfind'] at h'
      obtain ⟨_, rule', hconstraint', hdecides'⟩ := h'
      rw [Option.map_some, Option.map_some, hconstraint, hconstraint', hdecides.unique hdecides']

/-! ### Places -/

section

variable {trip : Trip} {stop : StopId} {place : Place} {endpoint : Endpoint}

theorem any_id_of_mem (htrip : trip ∈ t.trips) : t.trips.any (·.id == trip.id) = true := by
  obtain ⟨i, hi, hget⟩ := Array.mem_iff_getElem.mp htrip
  exact Array.any_eq_true.mpr ⟨i, hi, by simp [hget]⟩

/-- A place that designates a trip where it is means it, and the other way round. -/
theorem designates_iff_meaning (htrip : trip ∈ t.trips) (hroute : trip.route = p.route)
    (hstop : p.stops[position]? = some stop) :
    place.designates trip position stop (stationOf stations stop) = true ↔
      meaning stations p t position place = some none ∨
      meaning stations p t position place = some (some trip.id) := by
  have hknown := any_id_of_mem htrip
  cases place with
  | stop named => simp [Place.designates, meaning, hstop]
  | station named => simp [Place.designates, meaning, hstop]
  | routeStop route named => simp [Place.designates, meaning, hstop, hroute]
  | tripStop named index =>
    simp only [Place.designates, meaning, hstop, Bool.and_eq_true, beq_iff_eq]
    constructor
    · rintro ⟨rfl, rfl⟩
      rw [if_pos ⟨rfl, hknown⟩]
      exact .inr rfl
    · intro h
      split at h
      case isTrue hmeans => simpa [hmeans.1] using h
      case isFalse => simp at h

/-- Unless an endpoint is mixed, it designates a trip if and only if the first of its places that
means something at a position means the trip. -/
theorem designates_iff_findSome (hplain : ¬endpoint.IsMixed) (htrip : trip ∈ t.trips)
    (hroute : trip.route = p.route) (hstop : p.stops[position]? = some stop) :
    endpoint.designates trip position stop (stationOf stations stop) = true ↔
      ∃ target, endpoint.places.findSome? (meaning stations p t position) = some target ∧
        (target = none ∨ target = some trip.id) := by
  have hplace : ∀ place : Place, place.designates trip position stop (stationOf stations stop) =
      true ↔ _ := fun _ => designates_iff_meaning htrip hroute hstop
  rw [Endpoint.designates, List.any_eq_true]
  cases endpoint with
  | one place =>
    simp only [Endpoint.places, List.mem_singleton, exists_eq_left, hplace]
    cases hmeaning : meaning stations p t position place with
    | none => simp [hmeaning]
    | some target => simp [hmeaning]
  | anyOf places =>
    -- no place of the choice is about one trip
    have hall : ∀ place ∈ places, ∀ target, meaning stations p t position place = some target →
        target = none := by
      intro place hin target hmeaning
      cases place with
      | tripStop named index => exact absurd ⟨places, rfl, named, index, hin⟩ hplain
      | stop named | station named | routeStop route named =>
        simp only [meaning, hstop] at hmeaning
        split at hmeaning
        · exact (Option.some.inj hmeaning).symm
        · cases hmeaning
    constructor
    · rintro ⟨place, hin, hdesignates⟩
      have hsome : ∃ target, meaning stations p t position place = some target :=
        ((hplace place).mp hdesignates).elim (fun h => ⟨_, h⟩) fun h => ⟨_, h⟩
      have hfound := (List.findSome?_isSome_iff (f := meaning stations p t position)).mpr
        ⟨place, hin, Option.isSome_iff_exists.mpr hsome⟩
      obtain ⟨target, htarget⟩ := Option.isSome_iff_exists.mp hfound
      obtain ⟨place', hin', hmeaning⟩ := List.exists_of_findSome?_eq_some htarget
      exact ⟨target, htarget, .inl (hall place' hin' target hmeaning)⟩
    · rintro ⟨target, htarget, -⟩
      obtain ⟨place, hin, hmeaning⟩ := List.exists_of_findSome?_eq_some htarget
      obtain rfl := hall place hin target hmeaning
      exact ⟨place, hin, (hplace place).mpr (.inl hmeaning)⟩

theorem appliesTo_iff {e : RuleEntry} :
    e.appliesTo trip = true ↔ e.target = none ∨ e.target = some trip.id := by
  unfold RuleEntry.appliesTo
  cases e.target <;> simp

/-- The entry of a rule applies to the trips that the first of the places on its near side means. -/
theorem exists_entry_iff_findSome {rule : Rule} {number : Nat} {other : Trip} {otherPosition : Nat}
    {otherStop : StopId} {otherStation : Option StationId} :
    (∃ e, entry? stations p t position near far rule number = some e ∧
      (e.source.designates other otherPosition otherStop otherStation &&
        e.appliesTo trip) = true) ↔
      (∃ target, (near rule).places.findSome? (meaning stations p t position) = some target ∧
        (target = none ∨ target = some trip.id)) ∧
        (far rule).designates other otherPosition otherStop otherStation = true := by
  constructor
  · rintro ⟨e, he, happlies⟩
    obtain ⟨target, htarget, rfl⟩ := Option.map_eq_some_iff.mp he
    rw [Bool.and_eq_true, appliesTo_iff] at happlies
    exact ⟨⟨target, htarget, happlies.2⟩, happlies.1⟩
  · rintro ⟨⟨target, htarget, happlies⟩, hdesignates⟩
    refine ⟨_, Option.map_eq_some_iff.mpr ⟨target, htarget, rfl⟩, ?_⟩
    rw [Bool.and_eq_true, appliesTo_iff]
    exact ⟨hdesignates, happlies⟩

/-- The entry of a rule whose near side is not mixed applies to the trips that it designates. -/
theorem exists_entry_iff {rule : Rule} {number : Nat} {other : Trip} {otherPosition : Nat}
    {otherStop : StopId} {otherStation : Option StationId} (hplain : ¬(near rule).IsMixed)
    (htrip : trip ∈ t.trips) (hroute : trip.route = p.route)
    (hstop : p.stops[position]? = some stop) :
    (∃ e, entry? stations p t position near far rule number = some e ∧
      (e.source.designates other otherPosition otherStop otherStation &&
        e.appliesTo trip) = true) ↔
      (near rule).designates trip position stop (stationOf stations stop) = true ∧
        (far rule).designates other otherPosition otherStop otherStation = true := by
  rw [exists_entry_iff_findSome, designates_iff_findSome hplain htrip hroute hstop]

end

end RuleIndex

namespace RuleIndex

variable {stations : Array (Option StationId)} {patterns : Array Pattern}
  {timetables : Array Timetable} {rules : List Rule} {d : Direction} {p : Pattern} {t : Timetable}
  {i position : Nat}

/-! ### The tables of the index -/

/-- The entries of the index where a search boards. -/
theorem entriesAt_patternRules (hposition : position < p.length)
    (hboards : d.canBoard p position = .ok true) :
    (RuleIndex.patternRules stations rules d p t).entriesAt position =
      match d with
      | .forward =>
        RuleIndex.entriesAt stations rules p t Rule.target Rule.source position
      | .reverse =>
        RuleIndex.entriesAt stations rules p t Rule.source Rule.target position := by
  cases d <;>
    simp [RuleIndex.patternRules, PatternRules.entriesAt, Array.getD_eq_getD_getElem?, hposition,
      hboards]

theorem getElem?_entries (hp : patterns[i]? = some p) (ht : timetables[i]? = some t) :
    (RuleIndex.build stations patterns timetables rules).forward[i]? =
        some (RuleIndex.patternRules stations rules .forward p t) ∧
      (RuleIndex.build stations patterns timetables rules).reverse[i]? =
        some (RuleIndex.patternRules stations rules .reverse p t) := by
  have hzip : (patterns.zip timetables)[i]? = some (p, t) :=
    Array.getElem?_zip_eq_some.mpr ⟨hp, ht⟩
  simp [RuleIndex.build, hzip]

structure At (patterns : Array Pattern) (timetables : Array Timetable) (trip : Trip)
    (position : Nat) (stop : StopId) (p : Pattern) (t : Timetable) : Prop where
  pattern : patterns[trip.pattern]? = some p
  timetable : timetables[trip.pattern]? = some t
  mem : trip ∈ t.trips
  route : trip.route = p.route
  stop : p.stops[position]? = some stop

/-- What the rules say is found in the entries of the position that is boarded. -/
theorem constraintBetween_eq {index : RuleIndex} {found : PatternRules} {source target : Trip}
    {sourcePosition : Nat} {sourceStop : StopId}
    (h : index.forward[target.pattern]? = some found) :
    index.constraintBetween source sourcePosition sourceStop target position =
      ((found.entriesAt position).find? fun entry =>
        entry.source.designates source sourcePosition sourceStop
          (stationOf index.stations sourceStop) && entry.appliesTo target).map
            (·.constraint) := by
  unfold RuleIndex.constraintBetween
  simp only [h, Option.bind_eq_bind, Option.bind_some, Bool.and_comm]
  cases List.find? _ _ <;> rfl

end RuleIndex

namespace RuleSearch

variable {stations : Array (Option StationId)} {patterns : Array Pattern}
  {timetables : Array Timetable} {rules : List Rule} {p : Pattern} {t : Timetable}

/-! ### Rulings -/

theorem ruling_eq {s : RuleSearch} {change : Change} {trip : Trip} :
    s.ruling change trip = (((s.rules.entriesAt change.position).find? fun entry =>
      entry.source.designates change.source change.sourcePosition change.sourceStop
        (stationOf s.stations change.sourceStop) && entry.appliesTo trip).map
          (·.constraint)).getD .regular := by
  unfold ruling candidates
  rw [List.find?_filter]
  simp only [Bool.decide_and, Bool.decide_eq_true]

/-- A search that follows the clock finds what the rules say. -/
theorem ruling_forward {index : RuleIndex} {definitive : Bool} {change : Change} {target : Trip} :
    (RuleSearch.mk .forward (index.forward.getD target.pattern ⟨#[]⟩) index.stations
      definitive).ruling change target =
      (index.constraintBetween change.source change.sourcePosition change.sourceStop target
        change.position).getD .regular := by
  rw [ruling_eq, Array.getD_eq_getD_getElem?]
  cases hrules : index.forward[target.pattern]? with
  | none => simp [RuleIndex.constraintBetween, hrules, PatternRules.entriesAt]
  | some rules =>
    rw [RuleIndex.constraintBetween_eq hrules]
    rfl

/-- A search that goes back in time finds what the rules say, unless one of them has a mixed
side. -/
theorem ruling_reverse {definitive : Bool} {change : Change} {first second : Trip}
    {firstStop : StopId} {p' : Pattern} {t' : Timetable}
    (hfirst : RuleIndex.At patterns timetables first change.position firstStop p t)
    (hsecond : RuleIndex.At patterns timetables second change.sourcePosition
      change.sourceStop p' t')
    (hsource : change.source = second) (halights : p.canAlight change.position = .ok true)
    (hboards : p'.canBoard change.sourcePosition = .ok true)
    (hplain : ∀ rule ∈ rules, ¬rule.source.IsMixed ∧ ¬rule.target.IsMixed) :
    (RuleSearch.mk .reverse ((RuleIndex.build stations patterns timetables rules).reverse.getD
        first.pattern ⟨#[]⟩) stations definitive).ruling change first =
      ((RuleIndex.build stations patterns timetables rules).constraintBetween first
        change.position firstStop second change.sourcePosition).getD .regular := by
  have hforward : (RuleIndex.build stations patterns timetables rules).forward[second.pattern]? =
      some (RuleIndex.patternRules stations rules .forward p' t') :=
    (RuleIndex.getElem?_entries hsecond.pattern hsecond.timetable).1
  have hreverse : (RuleIndex.build stations patterns timetables rules).reverse[first.pattern]? =
      some (RuleIndex.patternRules stations rules .reverse p t) :=
    (RuleIndex.getElem?_entries hfirst.pattern hfirst.timetable).2
  have hposition := (Array.getElem?_eq_some_iff.mp hfirst.stop).1
  have hsourcePosition := (Array.getElem?_eq_some_iff.mp hsecond.stop).1
  rw [ruling_eq, RuleIndex.constraintBetween_eq hforward, Array.getD_eq_getD_getElem?, hreverse,
    Option.getD_some]
  dsimp only
  rw [RuleIndex.entriesAt_patternRules (d := .reverse) hposition halights,
    RuleIndex.entriesAt_patternRules (d := .forward) hsourcePosition hboards]
  refine congrArg (·.getD Constraint.regular) (RuleIndex.map_find_entriesAt_eq (Q := fun rule =>
    rule.source.designates first change.position firstStop (stationOf stations firstStop) = true ∧
      rule.target.designates second change.sourcePosition change.sourceStop
        (stationOf stations change.sourceStop) = true) ?_ ?_)
  · intro rule hrule number
    rw [hsource]
    exact (RuleIndex.exists_entry_iff (hplain rule hrule).1 hfirst.mem hfirst.route
      hfirst.stop).symm
  · intro rule hrule number
    rw [and_comm]
    exact (RuleIndex.exists_entry_iff (hplain rule hrule).2 hsecond.mem hsecond.route
      hsecond.stop).symm

end RuleSearch

end JourneyPlanner
