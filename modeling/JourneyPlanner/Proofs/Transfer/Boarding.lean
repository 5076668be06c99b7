import JourneyPlanner.Transfer.Boarding
import JourneyPlanner.Proofs.Network.Timetable

/-!
# Boardings that rules settle

What is known of a boarding that the scan under rules settles: its trip is accepted, its constraint
is that of the entry which decides on the trip, and it comes as late as the constraint asks.
-/

namespace JourneyPlanner

namespace RuleSearch

/-- The boarding time respects a constraint. -/
def Timely (s : RuleSearch) (change : Change) (time : Time) : Constraint → Prop
  | .regular => s.direction.NoLater change.earliest time
  | .guaranteed | .staySeated =>
    s.direction.NoLater (s.direction.shift change.arrival change.walk) time
  | .minTime least =>
    s.direction.NoLater (s.direction.shift change.arrival least) time ∧
      (s.definitive = false → s.direction.NoLater change.earliest time)
  | .notAllowed => True

/-- The entry that decides on a trip: the first one about the change that applies to the trip. -/
def decisive (s : RuleSearch) (change : Change) (trip : Trip) : Option RuleEntry :=
  (s.candidates change).find? fun entry => entry.appliesTo trip

/-- The constraint of the entry that decides on a trip. A trip that no entry is about is a regular
one. -/
def ruling (s : RuleSearch) (change : Change) (trip : Trip) : Constraint :=
  (((s.candidates change).find? fun entry => entry.appliesTo trip).map (·.constraint)).getD .regular

/-- The entry that decides on a trip, if there is one, stands for a constraint. To forbid a boarding
it has to be about all trips, and without an entry a trip is boarded regularly once the scan is free
to do so. -/
def StandsFor (freed : Prop) (constraint : Constraint) : Option RuleEntry → Prop
  | some entry =>
    entry.constraint = constraint ∧ (constraint = .notAllowed → entry.isForAllTrips = true)
  | none => constraint = .regular ∧ freed

/-- The entry that decides on a trip forbids this trip only. -/
def BarsOne (decisive : Option RuleEntry) : Prop :=
  ∃ entry, decisive = some entry ∧ entry.constraint = .notAllowed ∧ entry.isForAllTrips = false

/-- What a verdict says about a trip. A trip that is settled may be boarded under the constraint, in
time, and one that is passed under no constraint at all. -/
def Explains (s : RuleSearch) (change : Change) (time : Time) (freed : Bool)
    (decisive : Option RuleEntry) : Verdict → Prop
  | .settle constraint =>
    StandsFor (freed = true) constraint decisive ∧ s.Timely change time constraint
  | .pass freedNow =>
    (∀ constraint, StandsFor (freed = true) constraint decisive →
      ¬s.Timely change time constraint) ∧
    (freedNow = true ↔ freed = true ∨ BarsOne decisive)

/-- What holds of a boarding that is settled. -/
structure Settles (s : RuleSearch) (t : Timetable) (change : Change) (accepts : Trip → Bool)
    (b : Boarding) : Prop where
  trip : t.trips[b.rank]? = some b.trip
  accepted : accepts b.trip = true
  time : b.time = s.direction.boardingAt b.trip change.position
  notBefore : s.direction.NoLater change.arrival b.time
  constraint : b.constraint = s.ruling change b.trip
  timely : s.Timely change b.time b.constraint

variable {s : RuleSearch} {t : Timetable} {length : Nat} {change : Change}
  {accepts : Trip → Bool}

/-- The verdict on a trip is explained by its decisive entry. -/
theorem yields_judge_explains {arrivalAtStop time : Time} {freed : Bool}
    {decisive : Option RuleEntry}
    (harrival : arrivalAtStop = s.direction.shift change.arrival change.walk) :
    Yields (s.judge change arrivalAtStop time freed decisive)
      (s.Explains change time freed decisive) := by
  subst harrival
  -- a trip with a single constraint to be settled under, from a time on
  have hsettle : ∀ bound constraint,
      (∀ other, StandsFor (freed = true) other decisive ↔ other = constraint) →
      (s.Timely change time constraint ↔ s.direction.NoLater bound time) → ¬BarsOne decisive →
      s.Explains change time freed decisive
        (if s.direction.isBefore time bound then .pass freed else .settle constraint) := by
    intro bound constraint hstands htimely hbars
    cases hbefore : s.direction.isBefore time bound with
    | false =>
      exact ⟨(hstands constraint).mpr rfl,
        htimely.mpr (Direction.isBefore_eq_false_iff.mp hbefore)⟩
    | true =>
      refine ⟨fun other hother => ?_, (or_iff_left hbars).symm⟩
      rw [(hstands other).mp hother, htimely, ← Direction.isBefore_eq_false_iff, hbefore]
      simp
  unfold judge
  cases decisive with
  | none =>
    have hbars : ¬BarsOne none := by simp [BarsOne]
    cases freed with
    | false => exact ⟨fun _ h => absurd h.2 (by simp), (or_iff_left hbars).symm⟩
    | true => exact hsettle change.earliest .regular (by simp [StandsFor]) Iff.rfl hbars
  | some entry =>
    have hallowed : entry.constraint ≠ .notAllowed →
        (∀ other, StandsFor (freed = true) other (some entry) ↔ other = entry.constraint) ∧
          ¬BarsOne (some entry) := by
      intro hne
      refine ⟨fun other => ⟨fun h => h.1.symm, ?_⟩, ?_⟩
      · rintro rfl
        exact ⟨rfl, fun h => absurd h hne⟩
      · rintro ⟨_, ⟨⟩, hforbidden, -⟩
        exact hne hforbidden
    dsimp only
    cases hconstraint : entry.constraint with
    | regular | guaranteed | staySeated =>
      rw [hconstraint] at hallowed
      obtain ⟨hstands, hbars⟩ := hallowed (by simp)
      exact hsettle _ _ hstands Iff.rfl hbars
    | minTime least =>
      rw [hconstraint] at hallowed
      obtain ⟨hstands, hbars⟩ := hallowed (by simp)
      refine Direction.yields_plus.bind ?_
      rintro bound - ⟨rfl, -⟩
      refine hsettle _ (.minTime least) hstands ?_ hbars
      cases hdefinitive : s.definitive with
      | true => simp [Timely, hdefinitive]
      | false => simp [Timely, hdefinitive, Direction.noLater_worst_iff]
    | notAllowed =>
      cases hall : entry.isForAllTrips with
      | true => exact ⟨⟨hconstraint, fun _ => hall⟩, trivial⟩
      | false =>
        refine ⟨?_, iff_of_true rfl (.inr ⟨entry, rfl, hconstraint, hall⟩)⟩
        rintro constraint ⟨rfl, hforbids⟩
        rw [hforbids hconstraint] at hall
        cases hall

/-- A trip that is settled is so by its decisive entry, and in time. -/
theorem yields_judge {arrivalAtStop time : Time} {freed : Bool} {decisive : Option RuleEntry}
    (harrival : arrivalAtStop = s.direction.shift change.arrival change.walk) :
    Yields (s.judge change arrivalAtStop time freed decisive) fun verdict =>
      ∀ constraint, verdict = .settle constraint →
        constraint = (decisive.map (·.constraint)).getD .regular ∧
          s.Timely change time constraint := by
  refine (yields_judge_explains harrival).mono ?_
  rintro _ - hverdict constraint rfl
  obtain ⟨hstands, htimely⟩ := hverdict
  cases decisive with
  | none => exact ⟨hstands.1, htimely⟩
  | some entry => exact ⟨hstands.1.symm, htimely⟩

theorem yields_findAmong (ht : t.Sound length) (hposition : change.position < length)
    {arrivalAtStop : Time}
    (harrival : arrivalAtStop = s.direction.shift change.arrival change.walk) {tried : Nat}
    {freed : Bool} {ranked : List (Nat × Trip)}
    (hranked : ∀ entry ∈ ranked, t.trips[entry.1]? = some entry.2) :
    Yields (s.findAmong change accepts (s.candidates change) arrivalAtStop tried freed ranked)
      fun found => ∀ b, found = some b → s.Settles t change accepts b := by
  induction ranked generalizing tried freed with
  | nil => simp [findAmong]
  | cons entry rest ih =>
    obtain ⟨rank, trip⟩ := entry
    have htrip : t.trips[rank]? = some trip := hranked (rank, trip) (by simp)
    have hrest : ∀ tried freed, Yields (s.findAmong change accepts (s.candidates change)
        arrivalAtStop tried freed rest) fun found =>
          ∀ b, found = some b → s.Settles t change accepts b := fun _ _ =>
      ih fun entry hentry => hranked entry (by simp [hentry])
    rw [findAmong, (ht.fits trip (Array.mem_of_getElem? htrip)).boardTime hposition]
    refine Yields.ite (c := (s.direction.isBefore _ change.arrival || !accepts trip) = true)
      (fun _ => hrest tried freed) fun hpossible => ?_
    simp only [Bool.or_eq_true, Bool.not_eq_true', not_or, Bool.not_eq_true,
      Direction.isBefore_eq_false_iff, Bool.not_eq_false] at hpossible
    refine (yields_judge harrival).bind fun verdict _ hverdict => ?_
    cases verdict with
    | pass freed => exact Yields.ite (fun _ => by simp) fun _ => hrest _ _
    | settle constraint =>
      obtain ⟨hconstraint, htimely⟩ := hverdict constraint rfl
      rintro b ⟨⟩
      exact ⟨htrip, hpossible.2, rfl, hpossible.1, hconstraint, htimely⟩

/-- A boarding that the scan finds is settled by the entry that decides on its trip. -/
theorem yields_find (ht : t.Sound length) (hposition : change.position < length) :
    Yields (s.find t change accepts) fun found =>
      ∀ b, found = some b → s.Settles t change accepts b := by
  rw [find]
  refine Yields.ite (fun _ => by simp) fun _ => ?_
  refine Direction.yields_plus.bind ?_
  rintro arrivalAtStop - ⟨harrival, -⟩
  exact yields_findAmong ht hposition harrival fun entry hentry => Timetable.mem_ranked.mp hentry

end RuleSearch

end JourneyPlanner
