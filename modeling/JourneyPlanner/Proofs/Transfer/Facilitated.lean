import JourneyPlanner.Proofs.Transfer.Rulings

/-!
# Rules that only facilitate changes

Where all rules say that a trip waits or that the traveller stays seated, a scan that finds a
boarding has passed over no trip before it to which the rules facilitate the change, unless that
trip runs before the change is made.

* `RuleIndex.Facilitates`: all rules of an index facilitate changes.
* `RuleSearch.Helps`: the rules help to board a trip.
* `RuleSearch.yields_find_first`: a search that follows the clock finds the first trip that the
  rules help to board.
-/

namespace JourneyPlanner

/-- All rules facilitate the changes that they are about. -/
def RuleIndex.Facilitates (index : RuleIndex) : Prop :=
  ∀ rule ∈ index.rules, rule.constraint.isFacilitated = true

theorem Constraint.isNotAllowed_of_isFacilitated {constraint : Constraint}
    (h : constraint.isFacilitated = true) : constraint.isNotAllowed = false := by
  cases constraint with
  | guaranteed | staySeated => rfl
  | regular | minTime | notAllowed => cases h

namespace RuleIndex

variable {stations : Array (Option StationId)} {patterns : Array Pattern}
  {timetables : Array Timetable} {rules : List Rule} {p : Pattern} {t : Timetable}
  {near far : Rule → Endpoint} {position : Nat} {e : RuleEntry} {pattern : PatternId}

/-- Every entry at a position has the constraint of a rule. -/
theorem exists_rule_of_mem_entriesAt (h : e ∈ entriesAt stations rules p t near far position) :
    ∃ rule ∈ rules, e.constraint = rule.constraint := by
  obtain ⟨⟨rule, number⟩, hmem, hentry⟩ := List.mem_filterMap.mp (List.mem_mergeSort.mp h)
  exact ⟨rule, List.mem_of_getElem? (List.mem_zipIdx_iff_getElem?.mp hmem),
    (rule_entry hentry).2.2.1⟩

/-- Every entry that a search following the clock meets has the constraint of a rule. -/
theorem exists_rule_of_mem_forward
    (h : e ∈ ((build stations patterns timetables rules).forward.getD pattern ⟨#[]⟩).entriesAt
      position) : ∃ rule ∈ rules, e.constraint = rule.constraint := by
  rw [Array.getD_eq_getD_getElem?] at h
  cases hfound : (build stations patterns timetables rules).forward[pattern]? with
  | none => simp [hfound, PatternRules.entriesAt] at h
  | some found =>
    rw [hfound, Option.getD_some] at h
    obtain ⟨⟨p, t⟩, -, rfl⟩ := Array.mem_map.mp (Array.mem_of_getElem? hfound)
    simp only [PatternRules.entriesAt, patternRules, Array.getD_eq_getD_getElem?,
      Array.getElem?_map] at h
    cases hposition : (Array.range p.length)[position]? with
    | none => simp [hposition] at h
    | some position' =>
      rw [hposition, Option.map_some, Option.getD_some] at h
      split at h
      · exact exists_rule_of_mem_entriesAt h
      · cases h

/-- What the rules say about a change facilitates it if all of them do. -/
theorem constraintBetween_facilitated {source target : Trip} {sourcePosition : Nat}
    {sourceStop : StopId} {constraint : Constraint}
    (h : (build stations patterns timetables rules).Facilitates)
    (hfound : (build stations patterns timetables rules).constraintBetween source sourcePosition
      sourceStop target position = some constraint) : constraint.isFacilitated = true := by
  cases hentries : (build stations patterns timetables rules).forward[target.pattern]? with
  | none => simp [constraintBetween, hentries] at hfound
  | some found =>
    rw [constraintBetween_eq hentries, Option.map_eq_some_iff] at hfound
    obtain ⟨e, he, rfl⟩ := hfound
    have hmem : e ∈ ((build stations patterns timetables rules).forward.getD target.pattern
        ⟨#[]⟩).entriesAt position := by
      rw [Array.getD_eq_getD_getElem?, hentries]
      exact List.mem_of_find?_eq_some he
    obtain ⟨rule, hrule, hconstraint⟩ := exists_rule_of_mem_forward hmem
    rw [hconstraint]
    exact h rule hrule

end RuleIndex

namespace RuleSearch

/-- Where all rules facilitate changes, the ruling about a change does if there is one. -/
theorem isFacilitated_ruling_iff {stations : Array (Option StationId)} {patterns : Array Pattern}
    {timetables : Array Timetable} {rules : List Rule} {index : RuleIndex} {definitive : Bool}
    {change : Change} {target : Trip}
    (hindex : index = RuleIndex.build stations patterns timetables rules) (h : index.Facilitates) :
    ((RuleSearch.mk .forward (index.forward.getD target.pattern ⟨#[]⟩) index.stations
      definitive).ruling change target).isFacilitated = true ↔
      index.constraintBetween change.source change.sourcePosition change.sourceStop target
        change.position ≠ none := by
  subst hindex
  rw [ruling_forward]
  cases hfound : RuleIndex.constraintBetween _ change.source change.sourcePosition
      change.sourceStop target change.position with
  | none => simp [Constraint.isFacilitated, Constraint.isStaySeated, Constraint.isGuaranteed]
  | some constraint =>
    simpa using RuleIndex.constraintBetween_facilitated h hfound

/-- The rules help to board a trip: it is accepted, it does not run before the change is made, and
the entry that decides on it facilitates the change. -/
structure Helps (s : RuleSearch) (change : Change) (accepts : Trip → Bool) (trip : Trip) :
    Prop where
  accepted : accepts trip = true
  notBefore : s.direction.NoLater change.arrival (s.direction.boardingAt trip change.position)
  facilitated : (s.ruling change trip).isFacilitated = true
  timely : s.direction.NoLater (s.direction.shift change.arrival change.walk)
    (s.direction.boardingAt trip change.position)

variable {s : RuleSearch} {t : Timetable} {length : Nat} {change : Change} {accepts : Trip → Bool}

/-- A trip on which an entry that facilitates the change decides is boarded if it is met in time. -/
theorem judge_facilitated {arrivalAtStop time : Time} {entry : RuleEntry}
    (h : entry.constraint.isFacilitated = true) :
    s.judge change arrivalAtStop time false (some entry) =
      pure (if s.direction.isBefore time arrivalAtStop then .pass false
        else .settle entry.constraint) := by
  unfold judge
  cases hconstraint : entry.constraint with
  | guaranteed | staySeated => simp only [hconstraint]
  | regular | minTime | notAllowed =>
    rw [hconstraint] at h
    cases h

theorem yields_findAmong_first (ht : t.Sound length) (hposition : change.position < length)
    {arrivalAtStop : Time}
    (harrival : arrivalAtStop = s.direction.shift change.arrival change.walk)
    (hentries : ∀ e ∈ s.candidates change, e.constraint.isFacilitated = true) {tried : Nat}
    {ranked : List (Nat × Trip)} (hranked : ∀ entry ∈ ranked, entry.2 ∈ t.trips) :
    Yields (s.findAmong change accepts (s.candidates change) arrivalAtStop tried false ranked)
      fun found => ∀ b, found = some b → ∃ front back, ranked = front ++ (b.rank, b.trip) :: back ∧
        s.Helps change accepts b.trip ∧ ∀ entry ∈ front, ¬s.Helps change accepts entry.2 := by
  subst harrival
  induction ranked generalizing tried with
  | nil => simp [findAmong]
  | cons entry rest ih =>
    obtain ⟨rank, trip⟩ := entry
    have hrest : ¬s.Helps change accepts trip → ∀ tried, Yields (s.findAmong change accepts
        (s.candidates change) _ tried false rest) fun found => ∀ b, found = some b →
          ∃ front back, (rank, trip) :: rest = front ++ (b.rank, b.trip) :: back ∧
            s.Helps change accepts b.trip ∧ ∀ entry ∈ front, ¬s.Helps change accepts entry.2 :=
      fun hpassed _ => (ih fun entry hentry =>
        hranked entry (List.mem_cons_of_mem _ hentry)).mono fun found _ hfound b hb => by
          obtain ⟨front, back, rfl, hhelps, hfront⟩ := hfound b hb
          exact ⟨(rank, trip) :: front, back, rfl, hhelps,
            List.forall_mem_cons.mpr ⟨hpassed, hfront⟩⟩
    rw [findAmong, (ht.fits trip (hranked _ List.mem_cons_self)).boardTime hposition]
    refine Yields.ite (c := (s.direction.isBefore _ change.arrival || !accepts trip) = true)
      (fun himpossible => hrest (fun hhelps => ?_) tried) fun hpossible => ?_
    · simp only [Bool.or_eq_true, Bool.not_eq_true'] at himpossible
      rcases himpossible with hbefore | hrefused
      · rw [Direction.isBefore_eq_false_iff.mpr hhelps.notBefore] at hbefore
        cases hbefore
      · rw [hhelps.accepted] at hrefused
        cases hrefused
    simp only [Bool.or_eq_true, Bool.not_eq_true', not_or, Bool.not_eq_true,
      Direction.isBefore_eq_false_iff, Bool.not_eq_false] at hpossible
    -- what the entries say about the trip, in the words of its ruling
    have hruling : ∀ decisive, (s.candidates change).find? (fun entry => entry.appliesTo trip) =
        decisive → s.ruling change trip = (decisive.map (·.constraint)).getD .regular := by
      rintro _ rfl
      rfl
    cases hdecisive : (s.candidates change).find? fun entry => entry.appliesTo trip with
    | none =>
      have hpassed : ¬s.Helps change accepts trip := fun hhelps => by
        have hfacilitated := hhelps.facilitated
        rw [hruling _ hdecisive] at hfacilitated
        cases hfacilitated
      exact Yields.ite (fun _ => by simp) fun _ => hrest hpassed _
    | some decisive =>
      have hfacilitated := hentries decisive (List.mem_of_find?_eq_some hdecisive)
      have hdecides : s.ruling change trip = decisive.constraint := hruling _ hdecisive
      rw [judge_facilitated hfacilitated]
      rw [← hdecides] at hfacilitated ⊢
      cases hsoon : s.direction.isBefore (s.direction.boardingAt trip change.position)
          (s.direction.shift change.arrival change.walk) with
      | true =>
        have hpassed : ¬s.Helps change accepts trip := fun hhelps => by
          rw [Direction.isBefore_eq_false_iff.mpr hhelps.timely] at hsoon
          cases hsoon
        exact Yields.ite (fun _ => by simp) fun _ => hrest hpassed _
      | false =>
        rintro b ⟨⟩
        exact ⟨[], rest, rfl, ⟨hpossible.2, hpossible.1, hfacilitated,
          Direction.isBefore_eq_false_iff.mp hsoon⟩, by simp⟩

/-- A boarding that a search following the clock finds is the first that the rules help to make. -/
theorem yields_find_first (hd : s.direction = .forward) (ht : t.Sound length)
    (hposition : change.position < length)
    (hentries : ∀ e ∈ s.candidates change, e.constraint.isFacilitated = true) :
    Yields (s.find t change accepts) fun found => ∀ b, found = some b →
      s.Helps change accepts b.trip ∧ ∀ rank trip, t.trips[rank]? = some trip → rank < b.rank →
        ¬s.Helps change accepts trip := by
  rw [find]
  refine Yields.ite (fun _ => by simp) fun _ => ?_
  refine Direction.yields_plus.bind ?_
  rintro arrivalAtStop - ⟨harrival, -⟩
  refine (yields_findAmong_first ht hposition harrival hentries fun entry hentry =>
    Array.mem_of_getElem? (Timetable.mem_ranked.mp hentry)).mono fun found _ hfound b hb => ?_
  obtain ⟨front, back, hsplit, hhelps, hfront⟩ := hfound b hb
  refine ⟨hhelps, fun rank trip htrip hrank => ?_⟩
  -- the trips before the boarding stand in front of it
  have hget : ∀ (i rank : Nat) (trip : Trip), (t.ranked .forward)[i]? = some (rank, trip) →
      rank = i := by
    intro i rank trip hi
    obtain ⟨hi, -⟩ := List.getElem?_zip_eq_some.mp hi
    obtain ⟨hlt, hi⟩ := List.getElem?_eq_some_iff.mp hi
    exact hi.symm.trans (List.getElem_range hlt)
  rw [hd] at hsplit
  have hlength : b.rank = front.length := hget _ _ b.trip (by rw [hsplit]; simp)
  have hmem := Timetable.mem_ranked (d := .forward).mpr htrip
  rw [hsplit] at hmem
  rcases List.mem_append.mp hmem with hin | hin
  · exact hfront _ hin
  · obtain ⟨i, hi⟩ := List.getElem?_of_mem hin
    have hplace : rank = front.length + i := hget _ _ trip (by
      rw [hsplit, List.getElem?_append_right (Nat.le_add_right _ _), Nat.add_sub_cancel_left]
      exact hi)
    omega

end RuleSearch

end JourneyPlanner
