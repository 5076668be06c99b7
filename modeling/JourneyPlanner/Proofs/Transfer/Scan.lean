import JourneyPlanner.Proofs.Network.Built
import JourneyPlanner.Proofs.Transfer.Boarding

/-!
# The scan of trips under rules

The scan goes through the trips of a timetable in the order of the search, and takes the first one
that the entry deciding on it allows to board, or forbids to board for all trips. It only looks at
trips that are accepted and not met before the arrival, and gives up after five of them.

* `RuleSearch.Admits`: a trip is boarded under a constraint, given the trips that were passed.
* `RuleSearch.find_admits`: the scan takes the first trip that is admitted.
* `RuleSearch.find_eq_none_iff`: it finds none if and only if it admits none of the trips that it
  looks at.
* `RuleSearch.find_leastTime`: where a least transfer time is about all trips, the scan takes the
  first trip in time, unless five trips are too early.
-/

namespace JourneyPlanner

namespace RuleSearch

variable {s : RuleSearch} {t : Timetable} {length : Nat} {change : Change} {accepts : Trip → Bool}
  {passed : List (Nat × Trip)} {trip : Trip} {constraint : Constraint}

/-- A trip that the scan looks at: it is accepted, and not met before the arrival. -/
def isPossible (s : RuleSearch) (change : Change) (accepts : Trip → Bool) (trip : Trip) : Bool :=
  !s.direction.isBefore (s.direction.boardingAt trip change.position) change.arrival &&
    accepts trip

/-- One of the trips that were passed is possible, but forbidden by an entry about this trip only.
After it, trips that no entry is about may be boarded. -/
def Freed (s : RuleSearch) (change : Change) (accepts : Trip → Bool) (passed : List (Nat × Trip)) :
    Prop :=
  ∃ entry ∈ passed, s.isPossible change accepts entry.2 = true ∧
    BarsOne (s.decisive change entry.2)

/-- A trip is boarded under a constraint, or forbidden, once some trips were passed: it is possible,
the entry that decides on it stands for the constraint, and it comes as late as that asks. -/
structure Admits (s : RuleSearch) (change : Change) (accepts : Trip → Bool)
    (passed : List (Nat × Trip)) (trip : Trip) (constraint : Constraint) : Prop where
  possible : s.isPossible change accepts trip = true
  standsFor : StandsFor (s.Freed change accepts passed) constraint (s.decisive change trip)
  timely : s.Timely change (s.direction.boardingAt trip change.position) constraint

def possibleCount (s : RuleSearch) (change : Change) (accepts : Trip → Bool)
    (entries : List (Nat × Trip)) : Nat :=
  entries.countP fun entry => s.isPossible change accepts entry.2

/-- A boarding is the first one that is admitted among some trips, once others were passed: no trip
in front of it has a constraint under which it could have been boarded, and the scan does not give
up before it. -/
structure FirstAdmitted (s : RuleSearch) (change : Change) (accepts : Trip → Bool)
    (passed ranked : List (Nat × Trip)) (b : Boarding) : Prop where
  position : b.position = change.position
  time : s.direction.boardTime b.trip change.position = .ok b.time
  first : ∃ front back, ranked = front ++ (b.rank, b.trip) :: back ∧
    s.possibleCount change accepts (passed ++ front) < trialLimit ∧
    s.Admits change accepts (passed ++ front) b.trip b.constraint ∧
    ∀ before rank trip after, front = before ++ (rank, trip) :: after → ∀ constraint,
      ¬s.Admits change accepts (passed ++ before) trip constraint

/-- None of some trips is admitted before the scan gives up, once others were passed. -/
def AdmitsNone (s : RuleSearch) (change : Change) (accepts : Trip → Bool)
    (passed ranked : List (Nat × Trip)) : Prop :=
  ∀ before rank trip after, ranked = before ++ (rank, trip) :: after →
    s.possibleCount change accepts (passed ++ before) < trialLimit →
    ∀ constraint, ¬s.Admits change accepts (passed ++ before) trip constraint

/-- What it means that the scan of some trips finds a boarding or none, once others were passed. -/
def Answers (s : RuleSearch) (change : Change) (accepts : Trip → Bool)
    (passed ranked : List (Nat × Trip)) : Option Boarding → Prop
  | some b => s.FirstAdmitted change accepts passed ranked b
  | none => s.AdmitsNone change accepts passed ranked

instance {time : Time} : Decidable (s.Timely change time constraint) :=
  match constraint with
  | .regular | .guaranteed | .staySeated => inferInstanceAs (Decidable (s.direction.NoLater _ _))
  | .minTime _ => inferInstanceAs (Decidable (s.direction.NoLater _ _ ∧ (_ → _)))
  | .notAllowed => inferInstanceAs (Decidable True)

def boardingOf (s : RuleSearch) (change : Change) (constraint : Constraint) (entry : Nat × Trip) :
    Boarding :=
  ⟨entry.1, entry.2, change.position, s.direction.boardingAt entry.2 change.position, constraint⟩

/-- The trips of a timetable that the scan looks at, with their ranks, in the order of the
search. -/
def possibleTrips (s : RuleSearch) (t : Timetable) (change : Change) (accepts : Trip → Bool) :
    List (Nat × Trip) :=
  (t.ranked s.direction).filter fun entry => s.isPossible change accepts entry.2

theorem isPossible_iff : s.isPossible change accepts trip = true ↔
    s.direction.NoLater change.arrival (s.direction.boardingAt trip change.position) ∧
      accepts trip = true := by
  simp [isPossible, Direction.isBefore_eq_false_iff]

theorem freed_append_singleton {rank : Nat} : s.Freed change accepts (passed ++ [(rank, trip)]) ↔
    s.Freed change accepts passed ∨
      (s.isPossible change accepts trip = true ∧ BarsOne (s.decisive change trip)) := by
  unfold Freed
  constructor
  · rintro ⟨entry, hmem, hbars⟩
    rcases List.mem_append.mp hmem with hmem | hmem
    · exact .inl ⟨entry, hmem, hbars⟩
    · obtain rfl := List.mem_singleton.mp hmem
      exact .inr hbars
  · rintro (⟨entry, hmem, hbars⟩ | hbars)
    · exact ⟨entry, List.mem_append_left _ hmem, hbars⟩
    · exact ⟨(rank, trip), by simp, hbars⟩

@[simp] theorem possibleCount_append {front : List (Nat × Trip)} :
    s.possibleCount change accepts (passed ++ front) =
      s.possibleCount change accepts passed + s.possibleCount change accepts front :=
  List.countP_append

@[simp] theorem possibleCount_singleton {rank : Nat} :
    s.possibleCount change accepts [(rank, trip)] =
      if s.isPossible change accepts trip = true then 1 else 0 :=
  List.countP_singleton

/-- Without an entry about the change no trip is admitted. -/
theorem not_admits_of_candidates_eq_nil (h : s.candidates change = []) :
    ¬s.Admits change accepts passed trip constraint := by
  have hdecisive : ∀ trip, s.decisive change trip = none := fun trip => by
    rw [decisive, h, List.find?_nil]
  intro hadmits
  have hstands := hadmits.standsFor
  rw [hdecisive] at hstands
  obtain ⟨entry, -, -, decisive, hbars, -⟩ := hstands.2
  cases (hdecisive _).symm.trans hbars

/-! ### One trip -/

section

variable {arrivalAtStop : Time} {tried rank : Nat} {freed : Bool} {rest : List (Nat × Trip)}

/-- A trip that is not possible does not count. -/
theorem findAmong_cons_of_impossible
    (htime : s.direction.boardTime trip change.position =
      .ok (s.direction.boardingAt trip change.position))
    (h : s.isPossible change accepts trip = false) {candidates : List RuleEntry} :
    s.findAmong change accepts candidates arrivalAtStop tried freed ((rank, trip) :: rest) =
      s.findAmong change accepts candidates arrivalAtStop tried freed rest := by
  have hskip : (s.direction.isBefore (s.direction.boardingAt trip change.position)
      change.arrival || !accepts trip) = true := by
    simpa [isPossible, imp_iff_not_or] using h
  rw [findAmong, htime]
  exact if_pos hskip

/-- A possible trip gets the verdict of the entry that decides on it. -/
theorem findAmong_cons_of_possible
    (htime : s.direction.boardTime trip change.position =
      .ok (s.direction.boardingAt trip change.position))
    (h : s.isPossible change accepts trip = true) :
    s.findAmong change accepts (s.candidates change) arrivalAtStop tried freed
        ((rank, trip) :: rest) =
      s.judge change arrivalAtStop (s.direction.boardingAt trip change.position) freed
          (s.decisive change trip) >>= fun verdict =>
        match verdict with
        | .settle constraint => pure (some (s.boardingOf change constraint (rank, trip)))
        | .pass freed =>
          if trialLimit ≤ tried + 1 then pure none
          else s.findAmong change accepts (s.candidates change) arrivalAtStop (tried + 1) freed
            rest := by
  have hlooks : ¬(s.direction.isBefore (s.direction.boardingAt trip change.position)
      change.arrival || !accepts trip) = true := by
    simpa [isPossible] using h
  rw [findAmong, htime]
  exact if_neg hlooks

end

/-! ### What the scan finds -/

theorem FirstAdmitted.cons {rank : Nat} {ranked : List (Nat × Trip)} {b : Boarding}
    (hnot : ∀ constraint, ¬s.Admits change accepts passed trip constraint)
    (h : s.FirstAdmitted change accepts (passed ++ [(rank, trip)]) ranked b) :
    s.FirstAdmitted change accepts passed ((rank, trip) :: ranked) b where
  position := h.position
  time := h.time
  first := by
    obtain ⟨front, back, rfl, hcount, hadmits, hfront⟩ := h.first
    rw [List.append_assoc, List.singleton_append] at hcount hadmits
    refine ⟨(rank, trip) :: front, back, rfl, hcount, hadmits, ?_⟩
    intro before rank' trip' after hsplit constraint
    cases before with
    | nil =>
      cases hsplit
      simpa using hnot constraint
    | cons first before =>
      obtain ⟨rfl, hrest⟩ := List.cons.inj hsplit
      simpa using hfront before rank' trip' after hrest constraint

theorem AdmitsNone.cons {rank : Nat} {ranked : List (Nat × Trip)}
    (hnot : ∀ constraint, ¬s.Admits change accepts passed trip constraint)
    (h : s.AdmitsNone change accepts (passed ++ [(rank, trip)]) ranked) :
    s.AdmitsNone change accepts passed ((rank, trip) :: ranked) := by
  intro before rank' trip' after hsplit hcount constraint
  cases before with
  | nil =>
    cases hsplit
    simpa using hnot constraint
  | cons first before =>
    obtain ⟨rfl, hrest⟩ := List.cons.inj hsplit
    rw [← List.singleton_append, ← List.append_assoc] at hcount ⊢
    exact h before rank' trip' after hrest hcount constraint

/-- A trip that is not admitted is passed. -/
theorem Answers.cons {rank : Nat} {ranked : List (Nat × Trip)} {found : Option Boarding}
    (hnot : ∀ constraint, ¬s.Admits change accepts passed trip constraint)
    (h : s.Answers change accepts (passed ++ [(rank, trip)]) ranked found) :
    s.Answers change accepts passed ((rank, trip) :: ranked) found := by
  cases found with
  | none => exact AdmitsNone.cons hnot h
  | some b => exact FirstAdmitted.cons hnot h

/-- Among the trips that are left to look at, the scan takes the first one that is admitted, unless
it has to give up before. -/
theorem answers_of_findAmong {arrivalAtStop : Time}
    (harrival : arrivalAtStop = s.direction.shift change.arrival change.walk) {tried : Nat}
    (htried : tried = s.possibleCount change accepts passed) (hlimit : tried < trialLimit)
    {freed : Bool} (hfreed : freed = true ↔ s.Freed change accepts passed)
    {ranked : List (Nat × Trip)} {found : Option Boarding}
    (h : s.findAmong change accepts (s.candidates change) arrivalAtStop tried freed ranked =
      .ok found) : s.Answers change accepts passed ranked found := by
  induction ranked generalizing tried freed passed with
  | nil =>
    cases h
    intro before rank trip after hsplit
    cases (List.append_eq_nil_iff.mp hsplit.symm).2
  | cons entry rest ih =>
    obtain ⟨rank, trip⟩ := entry
    have htime : s.direction.boardTime trip change.position =
        .ok (s.direction.boardingAt trip change.position) := by
      obtain ⟨time, htime, -⟩ := bind_eq_ok.mp h
      rw [htime, Direction.boardTime_eq_ok htime]
    cases hpossible : s.isPossible change accepts trip with
    | false =>
      rw [findAmong_cons_of_impossible htime hpossible] at h
      apply Answers.cons
      · intro constraint hadmits
        simp [hadmits.possible] at hpossible
      · refine ih ?_ hlimit ?_ h
        · simpa [hpossible] using htried
        · rw [hfreed, freed_append_singleton, hpossible]
          simp
    | true =>
      rw [findAmong_cons_of_possible htime hpossible] at h
      obtain ⟨verdict, hverdict, h⟩ := bind_eq_ok.mp h
      have hexplains := (yields_judge_explains harrival).of_ok hverdict
      cases verdict with
      | settle constraint =>
        cases h
        refine ⟨rfl, htime, [], rest, rfl, ?_, ⟨hpossible, ?_, hexplains.2⟩, by simp⟩
        · rwa [List.append_nil, ← htried]
        · rw [List.append_nil, ← hfreed]
          exact hexplains.1
      | pass freedNow =>
        obtain ⟨hnot, hfreedNow⟩ := hexplains
        have hcount : tried + 1 = s.possibleCount change accepts (passed ++ [(rank, trip)]) := by
          simp [htried, hpossible]
        apply Answers.cons
        · intro constraint hadmits
          have hstands := hadmits.standsFor
          rw [← hfreed] at hstands
          exact hnot constraint hstands hadmits.timely
        · dsimp only at h
          split at h
          case isTrue hlast =>
            cases h
            rintro before rank' trip' after - hmore
            rw [possibleCount_append, ← hcount] at hmore
            omega
          case isFalse hmore =>
            refine ih hcount (Nat.lt_of_not_le hmore) ?_ h
            rw [hfreedNow, hfreed, freed_append_singleton, and_iff_right hpossible]

theorem answers_of_find {found : Option Boarding} (h : s.find t change accepts = .ok found) :
    s.Answers change accepts [] (t.ranked s.direction) found := by
  unfold find at h
  dsimp only at h
  split at h
  case isTrue hnone =>
    cases h
    rintro before rank trip after - - constraint
    exact not_admits_of_candidates_eq_nil (List.isEmpty_iff.mp hnone)
  case isFalse =>
    obtain ⟨arrivalAtStop, harrival, h⟩ := bind_eq_ok.mp h
    have harrival := (Direction.yields_plus.of_ok harrival).1
    have hcount : 0 = s.possibleCount change accepts [] := rfl
    exact answers_of_findAmong harrival hcount (by decide) (by simp [Freed]) h

/-- The scan finds none if and only if it admits none of the trips that it looks at: at most five
possible ones, and no trip at all if no entry is about the change. -/
theorem find_eq_none_iff {found : Option Boarding} (h : s.find t change accepts = .ok found) :
    found = none ↔ s.AdmitsNone change accepts [] (t.ranked s.direction) := by
  have hanswers := answers_of_find h
  cases found with
  | none => exact iff_of_true rfl hanswers
  | some b =>
    refine iff_of_false (Option.some_ne_none b) fun hnone => ?_
    obtain ⟨front, back, hranked, hcount, hadmits, -⟩ := hanswers.first
    exact hnone front b.rank b.trip back hranked hcount b.constraint hadmits

/-- A boarding that the scan finds is the first one that the most specific rule about the change
admits. Its trip is accepted and not met before the arrival. The boarding is forbidden only where
the entry that decides on the trip forbids all trips; it is guaranteed, stay-seated or under a least
transfer time only where this entry is, and in time for that; and it is regular, with all slacks,
only where this entry is, or where there is none and an entry about one trip forbade an earlier one.
No earlier trip has a constraint under which it could have been boarded, and fewer than five of
them are accepted and not met before the arrival. -/
theorem find_admits {b : Boarding} (h : s.find t change accepts = .ok (some b)) :
    s.FirstAdmitted change accepts [] (t.ranked s.direction) b :=
  answers_of_find h

/-- A red trip from A that ends at B, and a blue line on which ten trips leave B minute by minute
right after that. -/
def busyLines (rules : List RuleDraft) : Draft :=
  { Draft.new Draft.defaultDate with
    routes := #[⟨"red", 0⟩, ⟨"blue", 0⟩]
    trips := #[
      ⟨"red 1", 0, Draft.defaultCalendar,
        [⟨"A", 36000, 36000, .boardAndAlight⟩, ⟨"B", 36600, 36600, .boardAndAlight⟩]⟩] ++
      #["blue 1", "blue 2", "blue 3", "blue 4", "blue 5", "blue 6", "blue 7", "blue 8", "blue 9",
        "blue 10"].mapIdx fun minutes name => ⟨name, 1, Draft.defaultCalendar,
          [⟨"B", 36660 + 60 * minutes, 36660 + 60 * minutes, .boardAndAlight⟩,
            ⟨"C", 37260 + 60 * minutes, 37260 + 60 * minutes, .boardAndAlight⟩]⟩
    rules }

/-- What a scan needs for the change at B from the red trip to the blue line, for which a traveller
without any rule needs two minutes. -/
def changeAtB (net : Network) : Option (RuleSearch × Timetable × Change) := do
  let index ← net.rules
  let rules ← index.forward[1]?
  let blue ← net.timetables[1]?
  let red ← net.trip? "red 1"
  some (⟨.forward, rules, index.stations, false⟩, blue,
    { source := red, sourceStop := 1, sourcePosition := 1, arrival := 36600, walk := 0
      earliest := 36720, position := 0 })

/-- The first blue trip is forbidden by itself, so the second one is boarded regularly. -/
theorem find_admits_second : ∃ net s t change b,
    (busyLines [⟨.tripStop "red 1" 1, .tripStop "blue 1" 0, .notAllowed⟩]).build = .ok net ∧
    changeAtB net = some (s, t, change) ∧ s.find t change (fun _ => true) = .ok (some b) ∧
    b.trip.name = "blue 2" ∧ b.constraint = .regular ∧
    s.FirstAdmitted change (fun _ => true) [] (t.ranked s.direction) b := by
  have hbuilds : (busyLines [⟨.tripStop "red 1" 1, .tripStop "blue 1" 0, .notAllowed⟩]).builds
      (fun net => decide (∃ scan ∈ changeAtB net,
        (scan.1.find scan.2.1 scan.2.2 fun _ => true).map (·.map fun b =>
          (b.trip.name, b.constraint)) = .ok (some ("blue 2", .regular)))) = true := by
    decide +kernel
  obtain ⟨net, hbuild, hfacts⟩ := Draft.exists_of_builds hbuilds
  obtain ⟨⟨s, t, change⟩, hchange, hfound⟩ := of_decide_eq_true hfacts
  cases hfind : s.find t change fun _ => true with
  | error fault =>
    rw [hfind] at hfound
    cases hfound
  | ok found =>
    rw [hfind] at hfound
    obtain ⟨b, rfl, hb⟩ := Option.map_eq_some_iff.mp (Except.ok.inj hfound)
    obtain ⟨hname, hregular⟩ := Prod.mk.inj hb
    exact ⟨net, s, t, change, b, hbuild, hchange, hfind, hname, hregular, find_admits hfind⟩

/-! ### Least transfer times -/

/-- A trip of a timetable comes as late as a constraint asks. -/
def inTime (s : RuleSearch) (change : Change) (constraint : Constraint) (entry : Nat × Trip) :
    Bool :=
  s.Timely change (s.direction.boardingAt entry.2 change.position) constraint

theorem yields_findAmong_leastTime {arrivalAtStop : Time} {decisive : RuleEntry} {least : Span}
    (harrival : arrivalAtStop = s.direction.shift change.arrival change.walk)
    (hposition : change.position < length)
    (hdecides : ∀ trip, s.decisive change trip = some decisive)
    (hleast : decisive.constraint = .minTime least) {tried : Nat} (htried : tried < trialLimit)
    {freed : Bool} {ranked : List (Nat × Trip)} (hranked : ∀ entry ∈ ranked, entry.2.Fits length) :
    Yields (s.findAmong change accepts (s.candidates change) arrivalAtStop tried freed ranked)
      fun found => found =
        let possible := ranked.filter fun entry => s.isPossible change accepts entry.2
        let early := possible.takeWhile fun entry => !s.inTime change (.minTime least) entry
        if tried + early.length < trialLimit then
          (possible.find? (s.inTime change (.minTime least))).map
            (s.boardingOf change (.minTime least))
        else none := by
  induction ranked generalizing tried freed with
  | nil => simp [findAmong]
  | cons entry rest ih =>
    obtain ⟨rank, trip⟩ := entry
    have hrest : ∀ entry ∈ rest, entry.2.Fits length := fun entry hentry =>
      hranked entry (List.mem_cons_of_mem _ hentry)
    have htime := (hranked (rank, trip) List.mem_cons_self).boardTime hposition s.direction
    cases hpossible : s.isPossible change accepts trip with
    | false =>
      rw [findAmong_cons_of_impossible htime hpossible]
      simpa [List.filter_cons, hpossible] using ih htried hrest
    | true =>
      rw [findAmong_cons_of_possible htime hpossible, hdecides]
      dsimp only
      rw [List.filter_cons_of_pos (by exact hpossible)]
      refine (yields_judge_explains harrival).bind fun verdict _ hexplains => ?_
      cases verdict with
      | settle constraint =>
        obtain ⟨⟨hconstraint, -⟩, htimely⟩ := hexplains
        obtain rfl : constraint = .minTime least := hconstraint.symm.trans hleast
        have hin : s.inTime change (.minTime least) (rank, trip) = true := by
          simpa [inTime] using htimely
        simp [hin, htried]
      | pass freedNow =>
        have hout : s.inTime change (.minTime least) (rank, trip) = false := by
          have hearly := hexplains.1 (.minTime least) ⟨hleast, by simp⟩
          simpa [inTime] using hearly
        rw [List.takeWhile_cons_of_pos (by simp [hout]), List.length_cons,
          List.find?_cons_of_neg (by simp [hout])]
        refine Yields.ite (fun hlimit => ?_) fun hlimit => ?_
        · rw [if_neg (by omega)]
          rfl
        · refine (ih (show tried + 1 < trialLimit by omega) hrest).mono fun found _ hfound => ?_
          dsimp only at hfound
          rwa [Nat.add_right_comm, Nat.add_assoc] at hfound

/-- Where the first entry about a change asks for a least transfer time, whatever the trip, the scan
takes the first trip in the order of the search that is accepted, not met before the arrival and as
late as the least transfer time asks, unless five or more trips that are accepted and not met before
the arrival are too early: then it finds none. -/
theorem find_leastTime {first : RuleEntry} {rest : List RuleEntry} {least : Span}
    (ht : t.Sound length) (hposition : change.position < length)
    (hcandidates : s.candidates change = first :: rest) (hall : first.isForAllTrips = true)
    (hleast : first.constraint = .minTime least) :
    Yields (s.find t change accepts) fun found => found =
      let possible := s.possibleTrips t change accepts
      let early := possible.takeWhile fun entry => !s.inTime change (.minTime least) entry
      if early.length < trialLimit then
        (possible.find? (s.inTime change (.minTime least))).map
          (s.boardingOf change (.minTime least))
      else none := by
  have hdecides : ∀ trip, s.decisive change trip = some first := by
    intro trip
    have happlies : first.appliesTo trip = true := by
      unfold RuleEntry.appliesTo
      rw [Option.isNone_iff_eq_none.mp hall]
    rw [decisive, hcandidates]
    exact List.find?_cons_of_pos happlies
  have hfits : ∀ entry ∈ t.ranked s.direction, entry.2.Fits length := fun entry hentry =>
    ht.fits _ (Array.mem_of_getElem? (Timetable.mem_ranked.mp hentry))
  rw [find, hcandidates]
  refine Direction.yields_plus.bind ?_
  rintro arrivalAtStop - ⟨harrival, -⟩
  rw [← hcandidates]
  simpa [possibleTrips] using
    yields_findAmong_leastTime harrival hposition hdecides hleast (show 0 < trialLimit by decide)
      hfits

/-- The tenth blue trip leaves ten minutes after the arrival, as the rule asks, but nine trips
before it are too early. -/
theorem find_leastTime_tenth : ∃ net s t change first,
    (busyLines [⟨.stop "B", .stop "B", .minTime 600⟩]).build = .ok net ∧
    changeAtB net = some (s, t, change) ∧ t.Sound 2 ∧ change.position < 2 ∧
    s.candidates change = [first] ∧ first.isForAllTrips = true ∧
    first.constraint = .minTime 600 ∧
    ((s.possibleTrips t change fun _ => true).find? (s.inTime change (.minTime 600))).map
      (·.2.name) = some "blue 10" ∧
    s.find t change (fun _ => true) = .ok none := by
  have hbuilds : (busyLines [⟨.stop "B", .stop "B", .minTime 600⟩]).builds
      (fun net => decide (∃ scan ∈ changeAtB net, ∃ p ∈ net.patterns[1]?,
        net.timetables[1]? = some scan.2.1 ∧ p.length = 2 ∧ scan.2.2.position < 2 ∧
        ∃ first ∈ (scan.1.candidates scan.2.2).head?, scan.1.candidates scan.2.2 = [first] ∧
          first.isForAllTrips = true ∧ first.constraint = .minTime 600 ∧
          ((scan.1.possibleTrips scan.2.1 scan.2.2 fun _ => true).find?
            (scan.1.inTime scan.2.2 (.minTime 600))).map (·.2.name) = some "blue 10" ∧
          ¬((scan.1.possibleTrips scan.2.1 scan.2.2 fun _ => true).takeWhile fun entry =>
            !scan.1.inTime scan.2.2 (.minTime 600) entry).length < trialLimit ∧
          scan.1.find scan.2.1 scan.2.2 (fun _ => true) ≠ .error .overflow)) = true := by
    decide +kernel
  obtain ⟨net, hbuild, hfacts⟩ := Draft.exists_of_builds hbuilds
  obtain ⟨⟨s, t, change⟩, hchange, p, hp, ht, hlength, hposition, first, -, hcandidates, hall,
    hleast, htenth, hearly, hfind⟩ := of_decide_eq_true hfacts
  have hsound : t.Sound 2 := hlength ▸ (Draft.build_sound hbuild).timetable_sound hp ht
  obtain ⟨found, hfound, hanswer⟩ :=
    (find_leastTime hsound hposition hcandidates hall hleast).exists_ok hfind
  rw [if_neg hearly] at hanswer
  exact ⟨net, s, t, change, first, hbuild, hchange, hsound, hposition, hcandidates, hall, hleast,
    htenth, hanswer ▸ hfound⟩

end RuleSearch

end JourneyPlanner
