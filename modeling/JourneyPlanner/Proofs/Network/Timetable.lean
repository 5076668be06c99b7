import Mathlib.Data.List.InsertIdx
import JourneyPlanner.Network.Timetable
import JourneyPlanner.Proofs.Direction

/-!
# Ordered timetables

In a sound timetable the columns list the times of the trips, and no trip overtakes another one.
Insertion keeps timetables sound, and in a sound timetable the trip that a search takes is the
first accepted one in its direction.

* `countLeading_spec`: halving finds the boundary of a condition that holds of a leading part.
* `Timetable.Sound`: the columns and the order of the trips.
* `Timetable.insert?_sound`: insertion keeps a timetable sound.
* `Timetable.yields_bestTrip`: the trip to take is the first accepted one that can be boarded.
-/

namespace JourneyPlanner

/-! ### Halving -/

section

variable {table : Array Int} {holds : Int → Bool}

theorem countLeadingBetween_le (low high : Nat) (hle : low ≤ high) :
    countLeadingBetween table holds low high ≤ high := by
  fun_induction countLeadingBetween table holds low high with
  | case1 low high hlt middle hmid ih => exact ih (by omega)
  | case2 low high hlt middle hmid ih => exact (ih (by omega)).trans (by omega)
  | case3 low high hlt => exact hle

/-- The boundary lies between the bounds, where the condition changes. -/
theorem countLeadingBetween_spec
    (hmono : ∀ i j, i ≤ j → j < table.size → holds (table.getD j 0) = true →
      holds (table.getD i 0) = true)
    (low high : Nat) (hle : low ≤ high) (hsize : high ≤ table.size)
    (hlow : ∀ i < low, holds (table.getD i 0) = true)
    (hhigh : ∀ i, high ≤ i → i < table.size → holds (table.getD i 0) = false) :
    (∀ i < countLeadingBetween table holds low high, holds (table.getD i 0) = true) ∧
      ∀ i, countLeadingBetween table holds low high ≤ i → i < table.size →
        holds (table.getD i 0) = false := by
  fun_induction countLeadingBetween table holds low high with
  | case1 low high hlt middle hmid ih =>
    refine ih (by omega) hsize (fun i hi => ?_) hhigh
    exact hmono i middle (by omega) (by omega) hmid
  | case2 low high hlt middle hmid ih =>
    refine ih (by omega) (by omega) hlow fun i hi hisize => ?_
    cases h : holds (table.getD i 0) with
    | false => rfl
    | true => exact absurd (hmono middle i hi hisize h) hmid
  | case3 low high hlt =>
    have : low = high := by omega
    subst this
    exact ⟨hlow, hhigh⟩

theorem countLeading_le_size (table : Array Int) (holds : Int → Bool) :
    countLeading table holds ≤ table.size :=
  countLeadingBetween_le 0 table.size (Nat.zero_le _)

/-- The leading elements are counted, when those that satisfy the condition come first. -/
theorem countLeading_spec
    (hmono : ∀ i j, i ≤ j → j < table.size → holds (table.getD j 0) = true →
      holds (table.getD i 0) = true) :
    (∀ i < countLeading table holds, holds (table.getD i 0) = true) ∧
      ∀ i, countLeading table holds ≤ i → i < table.size → holds (table.getD i 0) = false :=
  countLeadingBetween_spec hmono 0 table.size (Nat.zero_le _) le_rfl (by simp) (by omega)

end

/-! ### The ends of a column

A search in a sorted column looks at its two ends first. What they tell, halving would find. -/

section

variable {column : Array Int}

/-- The ends of a sorted column tell the same place as halving it. -/
theorem firstFrom?_eq (hsorted : ∀ i j, i ≤ j → j < column.size →
      column.getD i 0 ≤ column.getD j 0) (time : Int) :
    firstFrom? column time =
      if countLeading column (fun departure => departure < time) < column.size then
        some (countLeading column fun departure => departure < time)
      else none := by
  obtain ⟨hbefore, hafter⟩ :=
    @countLeading_spec column (fun departure => departure < time) (by grind)
  have hle := countLeading_le_size column fun departure => departure < time
  simp only [decide_eq_true_eq, decide_eq_false_iff_not, not_lt] at hbefore hafter
  rw [firstFrom?, Array.back?_eq_getElem?]
  set count := countLeading column fun departure => departure < time
  rcases Nat.eq_zero_or_pos column.size with hempty | hpos
  · have hnone : ¬count < column.size := by omega
    rw [Array.getElem?_eq_none (by omega), if_neg hnone]
    rfl
  · have hlast : column[column.size - 1]? = some (column.getD (column.size - 1) 0) := by
      simp [hpos]
    rw [hlast, Option.bind_eq_bind, Option.bind_some]
    by_cases hlate : column.getD (column.size - 1) 0 < time
    · have hall : ¬count < column.size := fun hlt =>
        absurd ((hafter count le_rfl hlt).trans (hsorted _ _ (by omega) (by omega)))
          (not_le.mpr hlate)
      rw [if_pos hlate, if_neg hall]
    · have hlt : count < column.size := by
        by_contra hall
        exact hlate (hbefore _ (by omega))
      rw [if_neg hlate, if_pos hlt]
      by_cases hearly : time ≤ column.getD 0 0
      · have hnone : count = 0 := by
          by_contra hne
          exact absurd (hbefore 0 (by omega)) (not_lt.mpr hearly)
        rw [if_pos hearly, hnone]
      · rw [if_neg hearly]

/-- The ends of a sorted column tell the same number as halving it. -/
theorem countUntil?_eq (hsorted : ∀ i j, i ≤ j → j < column.size →
      column.getD i 0 ≤ column.getD j 0) (time : Int) :
    countUntil? column time =
      if 0 < countLeading column (fun arrival => arrival ≤ time) then
        some (countLeading column fun arrival => arrival ≤ time)
      else none := by
  obtain ⟨hbefore, hafter⟩ :=
    @countLeading_spec column (fun arrival => arrival ≤ time) (by grind)
  have hle := countLeading_le_size column fun arrival => arrival ≤ time
  simp only [decide_eq_true_eq, decide_eq_false_iff_not, not_le] at hbefore hafter
  rw [countUntil?]
  set count := countLeading column fun arrival => arrival ≤ time
  rcases Nat.eq_zero_or_pos column.size with hempty | hpos
  · have hnone : ¬0 < count := by omega
    rw [Array.getElem?_eq_none (by omega), if_neg hnone]
    rfl
  · have hfirst : column[0]? = some (column.getD 0 0) := by
      simp [hpos]
    rw [hfirst, Option.bind_eq_bind, Option.bind_some]
    by_cases hearly : time < column.getD 0 0
    · have hnone : ¬0 < count := fun hne => absurd (hbefore 0 hne) (not_le.mpr hearly)
      rw [if_pos hearly, if_neg hnone]
    · have hne : 0 < count := by
        by_contra hnone
        exact hearly (hafter 0 (by omega) hpos)
      rw [if_neg hearly, if_pos hne]

end

/-! ### Insertion into lists and tables -/

theorem insertIdx_eq_take_append {α : Type} (xs : List α) (n : Nat) (x : α) (h : n ≤ xs.length) :
    xs.insertIdx n x = xs.take n ++ x :: xs.drop n := by
  induction n generalizing xs with
  | zero => simp
  | succ n ih =>
    cases xs with
    | nil => simp at h
    | cons y ys => simp [ih ys (by simpa using h)]

theorem toList_insertIdxIfInBounds {α : Type} (xs : Array α) (n : Nat) (x : α) :
    (xs.insertIdxIfInBounds n x).toList = xs.toList.insertIdx n x := by
  unfold Array.insertIdxIfInBounds
  split
  case isTrue h => simp
  case isFalse h =>
    rw [List.insertIdx_of_length_lt]
    simpa using h

theorem map_insertIdxIfInBounds {α β : Type} (f : α → β) (xs : Array α) (n : Nat) (x : α) :
    (xs.map f).insertIdxIfInBounds n (f x) = (xs.insertIdxIfInBounds n x).map f := by
  apply Array.toList_inj.mp
  simp [toList_insertIdxIfInBounds, List.map_insertIdx]

/-! ### Times of trips -/

namespace Direction

/-- The time at which a search boards a trip at a position, zero outside the trip. -/
def boardingAt (d : Direction) (trip : Trip) (position : Nat) : Time :=
  match d with
  | .forward => trip.departures.getD position 0
  | .reverse => trip.arrivals.getD position 0

/-- The time at which a search leaves a trip at a position, zero outside the trip. -/
def alightingAt (d : Direction) (trip : Trip) (position : Nat) : Time :=
  match d with
  | .forward => trip.arrivals.getD position 0
  | .reverse => trip.departures.getD position 0

/-- A trip is met no later than another one of the same timetable. -/
def RankNoLater (d : Direction) (rank other : Nat) : Prop :=
  match d with
  | .forward => rank ≤ other
  | .reverse => other ≤ rank

theorem RankNoLater.refl {d : Direction} {rank : Nat} : d.RankNoLater rank rank := by
  cases d <;> exact le_rfl

theorem RankNoLater.trans {d : Direction} {a b c : Nat} (h : d.RankNoLater a b)
    (h' : d.RankNoLater b c) : d.RankNoLater a c := by
  cases d
  · exact le_trans h h'
  · exact le_trans h' h

theorem RankNoLater.antisymm {d : Direction} {a b : Nat} (h : d.RankNoLater a b)
    (h' : d.RankNoLater b a) : a = b := by
  cases d
  · exact le_antisymm h h'
  · exact le_antisymm h' h

theorem opposite_boardTime (d : Direction) (trip : Trip) (position : Nat) :
    d.opposite.boardTime trip position = d.alightTime trip position := by
  cases d <;> rfl

theorem opposite_boardingAt (d : Direction) (trip : Trip) (position : Nat) :
    d.opposite.boardingAt trip position = d.alightingAt trip position := by
  cases d <;> rfl

theorem opposite_alightingAt (d : Direction) (trip : Trip) (position : Nat) :
    d.opposite.alightingAt trip position = d.boardingAt trip position := by
  cases d <;> rfl

/-- A trip is boarded at the time in its tables. -/
theorem boardTime_eq_ok {d : Direction} {trip : Trip} {position : Nat} {time : Time}
    (h : d.boardTime trip position = .ok time) : time = d.boardingAt trip position := by
  cases d with
  | forward | reverse => simp [boardingAt, Array.getD_eq_getD_getElem?, fetch_eq_ok.mp h]

end Direction

namespace Trip

/-- A trip has a departure and an arrival at every position. -/
structure Fits (trip : Trip) (length : Nat) : Prop where
  departures_size : trip.departures.size = length
  arrivals_size : trip.arrivals.size = length

/-- A trip departs from every position, and arrives there, no later than another one. -/
def NeverAfter (trip other : Trip) : Prop :=
  ∀ position, trip.departures.getD position 0 ≤ other.departures.getD position 0 ∧
    trip.arrivals.getD position 0 ≤ other.arrivals.getD position 0

theorem NeverAfter.refl (trip : Trip) : trip.NeverAfter trip := fun _ => ⟨le_rfl, le_rfl⟩

theorem NeverAfter.trans {a b c : Trip} (h : a.NeverAfter b) (h' : b.NeverAfter c) :
    a.NeverAfter c :=
  fun position =>
    ⟨(h position).1.trans (h' position).1, (h position).2.trans (h' position).2⟩

variable {trip : Trip} {length position : Nat}

/-- Inside its pattern a trip can be boarded at any position. -/
theorem Fits.boardTime (h : trip.Fits length) (hp : position < length) (d : Direction) :
    d.boardTime trip position = .ok (d.boardingAt trip position) := by
  cases d with
  | forward =>
    have : position < trip.departures.size := by rw [h.departures_size]; exact hp
    simp [Direction.boardTime, Direction.boardingAt, Trip.departure, fetch, this]
  | reverse =>
    have : position < trip.arrivals.size := by rw [h.arrivals_size]; exact hp
    simp [Direction.boardTime, Direction.boardingAt, Trip.arrival, fetch, this]

/-- A trip is boarded at its positions only. -/
theorem Fits.lt_of_boardTime (h : trip.Fits length) {d : Direction} {time : Time}
    (htime : d.boardTime trip position = .ok time) : position < length := by
  cases d with
  | forward =>
    rw [← h.departures_size]
    exact (Array.getElem?_eq_some_iff.mp (fetch_eq_ok.mp htime)).1
  | reverse =>
    rw [← h.arrivals_size]
    exact (Array.getElem?_eq_some_iff.mp (fetch_eq_ok.mp htime)).1

theorem Fits.alightTime (h : trip.Fits length) (hp : position < length) (d : Direction) :
    d.alightTime trip position = .ok (d.alightingAt trip position) := by
  rw [← Direction.opposite_boardTime, ← Direction.opposite_boardingAt]
  exact h.boardTime hp d.opposite

theorem Fits.departure_eq (h : trip.Fits length) (hp : position < length) :
    trip.departure position = .ok (trip.departures.getD position 0) :=
  h.boardTime hp .forward

theorem Fits.arrival_eq (h : trip.Fits length) (hp : position < length) :
    trip.arrival position = .ok (trip.arrivals.getD position 0) :=
  h.boardTime hp .reverse

end Trip

namespace Timetable

/-- The columns list the times of the trips, all of which have `length` positions, and no trip is
overtaken by one before it. -/
structure Sound (t : Timetable) (length : Nat) : Prop where
  fits : ∀ trip ∈ t.trips, trip.Fits length
  departures_eq : t.departures = (Array.range length).map fun position =>
    t.trips.map fun trip => trip.departures.getD position 0
  arrivals_eq : t.arrivals = (Array.range length).map fun position =>
    t.trips.map fun trip => trip.arrivals.getD position 0
  ordered : t.trips.toList.Pairwise Trip.NeverAfter

theorem empty_sound (pattern : PatternId) (length : Nat) : (empty pattern length).Sound length where
  fits := by simp [empty]
  departures_eq := by simp [empty, Array.ext_iff]
  arrivals_eq := by simp [empty, Array.ext_iff]
  ordered := by simp [empty]

theorem noneEarlier_iff {times others : Array Time} (h : times.size = others.size) :
    noneEarlier times others = true ↔
      ∀ position, others.getD position 0 ≤ times.getD position 0 := by
  have hlen : times.toList.length = others.toList.length := by simpa using h
  rw [noneEarlier, List.all_eq_true]
  constructor
  · intro hall position
    by_cases hp : position < times.size
    · have hp' : position < others.size := by omega
      have := hall (times[position], others[position]) (by
        rw [List.mem_iff_getElem]
        exact ⟨position, by simp; omega, by simp⟩)
      simpa [hp, hp'] using this
    · have hp' : ¬position < others.size := by omega
      simp [hp, hp']
  · rintro hall ⟨x, y⟩ hxy
    obtain ⟨position, hp, hxy⟩ := List.mem_iff_getElem.mp hxy
    simp only [List.length_zip, Array.length_toList] at hp
    simp only [List.getElem_zip, Array.getElem_toList, Prod.mk.injEq] at hxy
    have hp₁ : position < times.size := by omega
    have hp₂ : position < others.size := by omega
    simpa [hp₁, hp₂, ← hxy.1, ← hxy.2] using hall position

/-- One trip is after another if it is so at every position. -/
theorem isAfter_iff {trip other : Trip} {length : Nat} (h : trip.Fits length)
    (h' : other.Fits length) : isAfter trip other = true ↔ other.NeverAfter trip := by
  rw [isAfter, Bool.and_eq_true,
    noneEarlier_iff (by rw [h.departures_size, h'.departures_size]),
    noneEarlier_iff (by rw [h.arrivals_size, h'.arrivals_size])]
  exact ⟨fun h position => ⟨h.1 position, h.2 position⟩,
    fun h => ⟨fun position => (h position).1, fun position => (h position).2⟩⟩

/-! ### Insertion -/

/-- An insertion at a rank puts the times of the trip at this rank of every column. -/
theorem insertColumn_eq {t : Timetable} {length rank : Nat} (trip : Trip)
    (value : Trip → Array Time) :
    insertColumn ((Array.range length).map fun position =>
        t.trips.map fun other => (value other).getD position 0) rank (value trip) =
      (Array.range length).map fun position =>
        (t.trips.insertIdxIfInBounds rank trip).map fun other => (value other).getD position 0 := by
  apply Array.ext_getElem?
  intro position
  simp only [insertColumn, Array.getElem?_mapIdx, Array.getElem?_map, Array.getElem?_range]
  split
  · simp [← map_insertIdxIfInBounds]
  · rfl

/-- The trip before and the trip after the rank of a new trip do not overtake it, nor it them. -/
theorem insertionRank?_neighbours {t : Timetable} {trip : Trip} {rank : Nat}
    (h : t.insertionRank? trip = some rank) :
    (∀ previous, rank ≠ 0 → t.trips[rank - 1]? = some previous → isAfter trip previous = true) ∧
      ∀ next, t.trips[rank]? = some next → isAfter next trip = true := by
  simp only [insertionRank?, Option.ite_none_right_eq_some, Bool.and_eq_true,
    Option.some.injEq] at h
  obtain ⟨⟨hprevious, hnext⟩, hrank⟩ := h
  rw [hrank] at hprevious hnext
  constructor
  · intro previous hne hprev
    simpa [hne, hprev] using hprevious
  · intro next hnext'
    simpa [hnext'] using hnext

/-- A new trip gets the rank that halving finds, if its neighbours there do not overtake it, nor it
them. -/
theorem insertionRank?_of_neighbours {t : Timetable} {trip : Trip} {rank : Nat}
    (hrank : countLeading (t.departures.getD 0 #[]) (fun time => time ≤ trip.departures.getD 0 0) =
      rank)
    (hprevious : ∀ previous, rank ≠ 0 → t.trips[rank - 1]? = some previous →
      isAfter trip previous = true)
    (hnext : ∀ next, t.trips[rank]? = some next → isAfter next trip = true) :
    t.insertionRank? trip = some rank := by
  simp only [insertionRank?, hrank]
  refine if_pos (Bool.and_eq_true_iff.mpr ⟨?_, ?_⟩)
  · split
    case isTrue => rfl
    case isFalse hne =>
      split
      case h_1 previous hneighbour => exact hprevious previous hne hneighbour
      case h_2 => rfl
  · split
    case h_1 next hneighbour => exact hnext next hneighbour
    case h_2 => rfl

variable {t : Timetable} {length : Nat}

/-- In an ordered timetable a trip of a lower rank is nowhere met later in the direction. -/
theorem Sound.neverAfter (ht : t.Sound length) {i j : Nat} {a b : Trip} (hij : i ≤ j)
    (ha : t.trips[i]? = some a) (hb : t.trips[j]? = some b) : a.NeverAfter b := by
  obtain ⟨hi, rfl⟩ := Array.getElem?_eq_some_iff.mp ha
  obtain ⟨hj, rfl⟩ := Array.getElem?_eq_some_iff.mp hb
  rcases Nat.lt_or_eq_of_le hij with hlt | rfl
  · exact List.pairwise_iff_getElem.mp ht.ordered i j (by simpa using hi) (by simpa using hj) hlt
  · exact Trip.NeverAfter.refl _

/-- A new trip comes after trips of the timetable only. -/
theorem Sound.insertionRank?_le (ht : t.Sound length) {trip : Trip} {rank : Nat}
    (h : t.insertionRank? trip = some rank) : rank ≤ t.trips.size := by
  simp only [insertionRank?, Option.ite_none_right_eq_some, Option.some.injEq] at h
  rw [← h.2, ht.departures_eq]
  refine (countLeading_le_size _ _).trans ?_
  by_cases hlength : 0 < length
  · simp [hlength]
  · simp [hlength]

/-- No trip before the rank of a new trip is anywhere later than it, and none from this rank on is
anywhere earlier: those further away are ordered with the new trip through its neighbours. -/
theorem Sound.apart (ht : t.Sound length) {trip : Trip} (hfits : trip.Fits length) {rank : Nat}
    (h : t.insertionRank? trip = some rank) {i : Nat} {other : Trip}
    (hi : t.trips[i]? = some other) :
    (i < rank → other.NeverAfter trip) ∧ (rank ≤ i → trip.NeverAfter other) := by
  obtain ⟨hprevious, hnext⟩ := insertionRank?_neighbours h
  have hrank := ht.insertionRank?_le h
  have hsize := (Array.getElem?_eq_some_iff.mp hi).1
  constructor
  · intro hlt
    have hneighbour := Array.getElem?_eq_getElem (show rank - 1 < t.trips.size by omega)
    have hafter := hprevious _ (by omega) hneighbour
    rw [isAfter_iff hfits (ht.fits _ (Array.mem_of_getElem? hneighbour))] at hafter
    exact (ht.neverAfter (by omega) hi hneighbour).trans hafter
  · intro hle
    have hneighbour := Array.getElem?_eq_getElem (show rank < t.trips.size by omega)
    have hafter := hnext _ hneighbour
    rw [isAfter_iff (ht.fits _ (Array.mem_of_getElem? hneighbour)) hfits] at hafter
    exact hafter.trans (ht.neverAfter hle hneighbour hi)

/-- Insertion keeps a timetable sound. -/
theorem insert?_sound (ht : t.Sound length) {trip : Trip} (hfits : trip.Fits length)
    {t' : Timetable} (h : t.insert? trip = some t') : t'.Sound length := by
  obtain ⟨rank, hrank, h⟩ := Option.bind_eq_some_iff.mp h
  obtain rfl := Option.some.inj h
  have hmem : ∀ other, other ∈ t.trips.insertIdxIfInBounds rank trip →
      other = trip ∨ other ∈ t.trips := by
    intro other hother
    rw [← Array.mem_toList_iff, toList_insertIdxIfInBounds] at hother
    exact (List.eq_or_mem_of_mem_insertIdx hother).imp_right Array.mem_toList_iff.mp
  refine ⟨fun other hother => ?_, ?_, ?_, ?_⟩
  · rcases hmem other hother with rfl | hother
    · exact hfits
    · exact ht.fits other hother
  · show insertColumn t.departures rank trip.departures = _
    rw [ht.departures_eq, insertColumn_eq]
  · show insertColumn t.arrivals rank trip.arrivals = _
    rw [ht.arrivals_eq, insertColumn_eq]
  · have hle : rank ≤ t.trips.toList.length := ht.insertionRank?_le hrank
    rw [toList_insertIdxIfInBounds, insertIdx_eq_take_append _ _ _ hle]
    have hordered := ht.ordered
    rw [← List.take_append_drop rank t.trips.toList, List.pairwise_append] at hordered
    obtain ⟨hbefore, hafter, hacross⟩ := hordered
    refine List.pairwise_append.mpr ⟨hbefore, List.pairwise_cons.mpr ⟨fun b hb => ?_, hafter⟩, ?_⟩
    · obtain ⟨i, hi⟩ := List.mem_iff_getElem?.mp hb
      rw [List.getElem?_drop, Array.getElem?_toList] at hi
      exact (ht.apart hfits hrank hi).2 (by omega)
    · intro a ha b hb
      rcases List.mem_cons.mp hb with rfl | hb
      · obtain ⟨i, hi⟩ := List.mem_iff_getElem?.mp ha
        rw [List.getElem?_take, Option.ite_none_right_eq_some, Array.getElem?_toList] at hi
        exact (ht.apart hfits hrank hi.2).1 hi.1
      · exact hacross a ha b hb

/-- A timetable gains the trip that is inserted and keeps the others. -/
theorem insert?_perm (ht : t.Sound length) {trip : Trip} {t' : Timetable}
    (h : t.insert? trip = some t') : t'.trips.toList.Perm (trip :: t.trips.toList) := by
  obtain ⟨rank, hrank, h⟩ := Option.bind_eq_some_iff.mp h
  obtain rfl := Option.some.inj h
  rw [toList_insertIdxIfInBounds]
  exact List.perm_insertIdx _ _ (ht.insertionRank?_le hrank)

/-! ### The trip to take -/

/-- Trips that are met in their order are left in their order. -/
theorem Sound.alightingAt_noLater (ht : t.Sound length) {d : Direction} {i j : Nat} {a b : Trip}
    (hij : d.RankNoLater i j) (ha : t.trips[i]? = some a) (hb : t.trips[j]? = some b)
    (position : Nat) : d.NoLater (d.alightingAt a position) (d.alightingAt b position) := by
  cases d with
  | forward => exact Direction.noLater_forward.mpr (ht.neverAfter hij ha hb position).2
  | reverse => exact Direction.noLater_reverse.mpr (ht.neverAfter hij hb ha position).1

/-- The departures from a position, in the order of the trips. -/
theorem Sound.departures_column (ht : t.Sound length) {position : Nat} (hp : position < length) :
    t.departures[position]? = some (t.trips.map fun trip => trip.departures.getD position 0) := by
  simp [ht.departures_eq, hp]

/-- The arrivals at a position, in the order of the trips. -/
theorem Sound.arrivals_column (ht : t.Sound length) {position : Nat} (hp : position < length) :
    t.arrivals[position]? = some (t.trips.map fun trip => trip.arrivals.getD position 0) := by
  simp [ht.arrivals_eq, hp]

/-- What is said of the rank of the trip to take: the trip is accepted and can be boarded in time,
and no accepted trip that can be boarded in time is met before it. -/
def IsBest (t : Timetable) (d : Direction) (accepts : Trip → Bool) (time : Time) (position : Nat) :
    Option Nat → Prop
  | none => ∀ (rank : Nat) (trip : Trip), t.trips[rank]? = some trip → accepts trip = true →
      ¬d.NoLater time (d.boardingAt trip position)
  | some rank => ∃ trip, t.trips[rank]? = some trip ∧ accepts trip = true ∧
      d.NoLater time (d.boardingAt trip position) ∧
      ∀ (rank' : Nat) (trip' : Trip), t.trips[rank']? = some trip' → accepts trip' = true →
        d.NoLater time (d.boardingAt trip' position) → d.RankNoLater rank rank'

theorem getD_map_trips {t : Timetable} {value : Trip → Int} {rank : Nat} {trip : Trip}
    (h : t.trips[rank]? = some trip) : (t.trips.map value).getD rank 0 = value trip := by
  simp [Array.getD_eq_getD_getElem?, h]

/-- Halving a column counts the trips of which the condition holds, when these come first. -/
theorem lt_countLeading_iff {t : Timetable} (value : Trip → Int) (holds : Int → Bool)
    (hvalue : ∀ (i j : Nat) a b, i ≤ j → t.trips[i]? = some a → t.trips[j]? = some b →
      value a ≤ value b)
    (hholds : ∀ x y : Int, x ≤ y → holds y = true → holds x = true) {rank : Nat} {trip : Trip}
    (h : t.trips[rank]? = some trip) :
    rank < countLeading (t.trips.map value) holds ↔ holds (value trip) = true := by
  have hmono : ∀ i j, i ≤ j → j < (t.trips.map value).size →
      holds ((t.trips.map value).getD j 0) = true →
      holds ((t.trips.map value).getD i 0) = true := by
    intro i j hij hj hholdsj
    rw [Array.size_map] at hj
    have hj' := Array.getElem?_eq_getElem hj
    have hi' := Array.getElem?_eq_getElem (show i < t.trips.size by omega)
    rw [getD_map_trips hj'] at hholdsj
    rw [getD_map_trips hi']
    exact hholds _ _ (hvalue i j _ _ hij hi' hj') hholdsj
  obtain ⟨hbefore, hafter⟩ := countLeading_spec hmono
  have hsize : rank < (t.trips.map value).size := by
    simpa using (Array.getElem?_eq_some_iff.mp h).1
  constructor
  · intro hlt
    simpa only [getD_map_trips h] using hbefore rank hlt
  · intro hvalue
    by_contra hge
    have := hafter rank (by omega) hsize
    rw [getD_map_trips h, hvalue] at this
    exact Bool.noConfusion this

/-- The times of a column grow with the ranks of the trips. -/
theorem Sound.column_sorted (ht : t.Sound length) {value : Trip → Int}
    (hvalue : ∀ {a b : Trip}, a.NeverAfter b → value a ≤ value b) (i j : Nat) (hij : i ≤ j)
    (hj : j < (t.trips.map value).size) :
    (t.trips.map value).getD i 0 ≤ (t.trips.map value).getD j 0 := by
  rw [Array.size_map] at hj
  have hi' := Array.getElem?_eq_getElem (show i < t.trips.size by omega)
  have hj' := Array.getElem?_eq_getElem hj
  rw [getD_map_trips hi', getD_map_trips hj']
  exact hvalue (ht.neverAfter hij hi' hj')

/-- From the first trip that departs in time on, the accepted trip that is met first is the best. -/
theorem isBest_findIdx?_drop {position first : Nat} {accepts : Trip → Bool} {time : Time}
    (hdivides : ∀ {rank : Nat} {trip : Trip}, t.trips[rank]? = some trip →
      (Direction.forward.NoLater time (Direction.forward.boardingAt trip position) ↔
        first ≤ rank)) :
    t.IsBest .forward accepts time position
      (((t.trips.toList.drop first).findIdx? accepts).map (first + ·)) := by
  cases hfound : (t.trips.toList.drop first).findIdx? accepts with
  | none =>
    rw [Option.map_none]
    intro rank trip htrip haccepts htime
    have hmem : trip ∈ t.trips.toList.drop first := by
      rw [List.mem_iff_getElem?]
      refine ⟨rank - first, ?_⟩
      have := (hdivides htrip).mp htime
      simpa [show first + (rank - first) = rank by omega] using htrip
    have := List.findIdx?_eq_none_iff.mp hfound trip hmem
    simp [haccepts] at this
  | some i =>
    obtain ⟨hi, haccepts, hbefore⟩ := List.findIdx?_eq_some_iff_getElem.mp hfound
    simp only [List.getElem_drop, Array.getElem_toList] at haccepts hbefore
    rw [List.length_drop, Array.length_toList] at hi
    have hi' := Array.getElem?_eq_getElem (show first + i < t.trips.size by omega)
    refine ⟨_, hi', haccepts, (hdivides hi').mpr (by omega), ?_⟩
    intro rank' trip' htrip' haccepts' htime'
    have hge := (hdivides htrip').mp htime'
    show first + i ≤ rank'
    by_contra hcontra
    have := hbefore (rank' - first) (by omega)
    obtain ⟨hr, rfl⟩ := Array.getElem?_eq_some_iff.mp htrip'
    simp [show first + (rank' - first) = rank' by omega, haccepts'] at this

/-- Back from the last trip that arrives in time, the accepted trip that is met first is the
best. -/
theorem isBest_findIdx?_take {position count : Nat} {accepts : Trip → Bool} {time : Time}
    (hdivides : ∀ {rank : Nat} {trip : Trip}, t.trips[rank]? = some trip →
      (Direction.reverse.NoLater time (Direction.reverse.boardingAt trip position) ↔
        rank < count))
    (hsize : count ≤ t.trips.size) :
    t.IsBest .reverse accepts time position
      (((t.trips.toList.take count).reverse.findIdx? accepts).map (count - 1 - ·)) := by
  cases hfound : (t.trips.toList.take count).reverse.findIdx? accepts with
  | none =>
    rw [Option.map_none]
    intro rank trip htrip haccepts htime
    have hmem : trip ∈ (t.trips.toList.take count).reverse := by
      rw [List.mem_reverse, List.mem_iff_getElem?]
      exact ⟨rank, by simpa [List.getElem?_take, (hdivides htrip).mp htime] using htrip⟩
    have := List.findIdx?_eq_none_iff.mp hfound trip hmem
    simp [haccepts] at this
  | some i =>
    obtain ⟨hi, haccepts, hbefore⟩ := List.findIdx?_eq_some_iff_getElem.mp hfound
    simp only [List.length_reverse, List.length_take, Array.length_toList] at hi
    simp only [List.getElem_reverse, List.length_take, Array.length_toList, List.getElem_take,
      Array.getElem_toList, Nat.min_eq_left hsize] at haccepts hbefore
    have hi' := Array.getElem?_eq_getElem (show count - 1 - i < t.trips.size by omega)
    refine ⟨_, hi', haccepts, (hdivides hi').mpr (by omega), ?_⟩
    intro rank' trip' htrip' haccepts' htime'
    have hlt' := (hdivides htrip').mp htime'
    show rank' ≤ count - 1 - i
    by_contra hcontra
    have := hbefore (count - 1 - rank') (by omega)
    obtain ⟨hr, rfl⟩ := Array.getElem?_eq_some_iff.mp htrip'
    simp [show count - 1 - (count - 1 - rank') = rank' by omega, haccepts'] at this

/-- The first accepted trip that departs in time is found. -/
theorem Sound.yields_firstAccepted (ht : t.Sound length) {position : Nat} (hp : position < length)
    (accepts : Trip → Bool) (time : Time) :
    Yields (t.firstAccepted accepts time position) (t.IsBest .forward accepts time position) := by
  have hcolumn := ht.departures_column hp
  set first := countLeading (t.trips.map fun trip => trip.departures.getD position 0)
    (fun departure => departure < time) with hfirst
  have hdivides : ∀ {rank : Nat} {trip : Trip}, t.trips[rank]? = some trip →
      (Direction.forward.NoLater time (Direction.forward.boardingAt trip position) ↔
        first ≤ rank) := by
    intro rank trip h
    have := lt_countLeading_iff (fun trip => trip.departures.getD position 0)
      (fun departure => departure < time)
      (fun i j a b hij ha hb => (ht.neverAfter hij ha hb position).1) (by grind) h
    rw [← hfirst, decide_eq_true_eq] at this
    rw [Direction.noLater_forward, ← not_lt, ← not_lt, this]
    rfl
  have hboardable : t.firstBoardable time position =
      .ok (if first < t.trips.size then some first else none) := by
    have hplace := firstFrom?_eq (ht.column_sorted fun h => (h position).1) time
    rw [← hfirst, Array.size_map] at hplace
    simp only [firstBoardable, fetch_of_getElem? hcolumn, bind, Except.bind, hplace]
    rfl
  rw [firstAccepted, hboardable]
  by_cases hsize : first < t.trips.size
  · rw [if_pos hsize]
    exact isBest_findIdx?_drop hdivides
  · rw [if_neg hsize]
    show t.IsBest .forward accepts time position none
    intro rank trip htrip _ htime
    have := (hdivides htrip).mp htime
    have := (Array.getElem?_eq_some_iff.mp htrip).1
    omega

/-- The last accepted trip that arrives in time is found. -/
theorem Sound.yields_lastAccepted (ht : t.Sound length) {position : Nat} (hp : position < length)
    (accepts : Trip → Bool) (time : Time) :
    Yields (t.lastAccepted accepts time position) (t.IsBest .reverse accepts time position) := by
  have hcolumn := ht.arrivals_column hp
  set count := countLeading (t.trips.map fun trip => trip.arrivals.getD position 0)
    (fun arrival => arrival ≤ time) with hcount
  have hdivides : ∀ {rank : Nat} {trip : Trip}, t.trips[rank]? = some trip →
      (Direction.reverse.NoLater time (Direction.reverse.boardingAt trip position) ↔
        rank < count) := by
    intro rank trip h
    have := lt_countLeading_iff (fun trip => trip.arrivals.getD position 0)
      (fun arrival => arrival ≤ time)
      (fun i j a b hij ha hb => (ht.neverAfter hij ha hb position).2) (by grind) h
    rw [← hcount, decide_eq_true_eq] at this
    rw [Direction.noLater_reverse, this]
    rfl
  have hsize : count ≤ t.trips.size := by
    simpa [hcount] using countLeading_le_size (t.trips.map fun trip =>
      trip.arrivals.getD position 0)
      (fun arrival => arrival ≤ time)
  have hlast : t.lastAccepted accepts time position =
      .ok (((t.trips.toList.take count).reverse.findIdx? accepts).map (count - 1 - ·)) := by
    have hplace := countUntil?_eq (ht.column_sorted fun h => (h position).2) time
    rw [← hcount] at hplace
    simp only [lastAccepted, fetch_of_getElem? hcolumn, bind, Except.bind, hplace]
    split
    case h_1 hnone =>
      have hzero : count = 0 := by simpa using hnone
      simp [hzero, pure, Except.pure]
    case h_2 hsome =>
      rw [(Option.ite_none_right_eq_some.mp hsome).2 |> Option.some.inj]
      rfl
  rw [hlast]
  exact isBest_findIdx?_take hdivides hsize

/-- A search takes the accepted trip that its direction meets first. -/
theorem Sound.yields_bestTrip (ht : t.Sound length) {position : Nat} (hp : position < length)
    (d : Direction) (accepts : Trip → Bool) (time : Time) :
    Yields (t.bestTrip d accepts time position) fun found =>
      t.IsBest d accepts time position (found.map (·.1)) ∧
        ∀ rank trip, found = some (rank, trip) → t.trips[rank]? = some trip := by
  have hfetch : ∀ rank?, t.IsBest d accepts time position rank? →
      Yields (match rank? with
        | none => pure none
        | some rank => do return some (rank, ← fetch t.trips rank)) fun found =>
          t.IsBest d accepts time position (found.map (·.1)) ∧
            ∀ rank trip, found = some (rank, trip) → t.trips[rank]? = some trip := by
    intro rank? hbest
    cases rank? with
    | none => exact ⟨hbest, by simp⟩
    | some rank =>
      obtain ⟨trip, htrip, -⟩ := id hbest
      simp only [fetch_of_getElem? htrip]
      exact ⟨hbest, by rintro _ _ ⟨⟩; exact htrip⟩
  cases d with
  | forward => exact (ht.yields_firstAccepted hp accepts time).bind fun rank? _ => hfetch rank?
  | reverse => exact (ht.yields_lastAccepted hp accepts time).bind fun rank? _ => hfetch rank?

/-- Taking a trip adds no numbers up. -/
theorem bestTrip_ne_overflow {t : Timetable} {d : Direction} {accepts : Trip → Bool} {time : Time}
    {position : Nat} : t.bestTrip d accepts time position ≠ .error .overflow := by
  have htrip : ∀ rank? : Option Nat, (match rank? with
      | none => pure none
      | some rank => do return some (rank, ← fetch t.trips rank) : Checked (Option (Nat × Trip))) ≠
        .error .overflow := by
    intro rank?
    cases rank? with
    | none => exact pure_ne_overflow
    | some rank => exact bind_ne_overflow fetch_ne_overflow fun _ => pure_ne_overflow
  unfold bestTrip
  cases d with
  | forward =>
    apply bind_ne_overflow _ htrip
    apply bind_ne_overflow
    · exact bind_ne_overflow fetch_ne_overflow fun _ => pure_ne_overflow
    · intro first
      cases first <;> exact pure_ne_overflow
  | reverse =>
    apply bind_ne_overflow _ htrip
    apply bind_ne_overflow fetch_ne_overflow
    intro column
    cases countUntil? column time <;> exact pure_ne_overflow

theorem mem_ranked {t : Timetable} {d : Direction} {rank : Nat} {trip : Trip} :
    (rank, trip) ∈ t.ranked d ↔ t.trips[rank]? = some trip := by
  have : (rank, trip) ∈ t.ranked d ↔ (rank, trip) ∈ (List.range t.size).zip t.trips.toList := by
    cases d <;> simp [ranked, Direction.order]
  rw [this, List.mem_iff_getElem?]
  constructor
  · rintro ⟨i, hi⟩
    obtain ⟨hrank, htrip⟩ := List.getElem?_zip_eq_some.mp hi
    obtain ⟨hlt, hrank⟩ := List.getElem?_eq_some_iff.mp hrank
    rw [List.getElem_range] at hrank
    subst hrank
    simpa using htrip
  · intro h
    refine ⟨rank, List.getElem?_zip_eq_some.mpr ⟨?_, by simpa using h⟩⟩
    exact List.getElem?_range (Array.getElem?_eq_some_iff.mp h).1

/-! ### Numbering -/

theorem getElem?_number {t : Timetable} {pattern rank : Nat} {trip : Trip}
    (h : (t.number pattern).trips[rank]? = some trip) :
    ∃ unnumbered, t.trips[rank]? = some unnumbered ∧ trip = { unnumbered with pattern, rank } := by
  simp only [number, Array.getElem?_mapIdx] at h
  obtain ⟨unnumbered, hunnumbered, rfl⟩ := Option.map_eq_some_iff.mp h
  exact ⟨unnumbered, hunnumbered, rfl⟩

/-- The numbers that trips are given do not change their times. -/
theorem map_number {t : Timetable} {pattern : Nat} (value : Trip → Int)
    (hvalue : ∀ trip pattern rank, value { trip with pattern, rank } = value trip) :
    (t.number pattern).trips.map value = t.trips.map value := by
  apply Array.ext_getElem?
  intro i
  simp only [number, Array.getElem?_map, Array.getElem?_mapIdx, Option.map_map]
  congr 1
  funext trip
  exact hvalue trip pattern i

/-- Numbering the trips changes none of their times. -/
theorem Sound.number (ht : t.Sound length) (pattern : Nat) : (t.number pattern).Sound length := by
  refine ⟨?_, ?_, ?_, ?_⟩
  · intro trip htrip
    obtain ⟨i, hi⟩ := Array.mem_iff_getElem?.mp htrip
    obtain ⟨other, hother, rfl⟩ := getElem?_number hi
    have := ht.fits other (Array.mem_of_getElem? hother)
    exact ⟨this.departures_size, this.arrivals_size⟩
  · show t.departures = _
    rw [ht.departures_eq]
    congr 1
    funext position
    exact (map_number (fun trip => trip.departures.getD position 0)
      fun _ _ _ => rfl).symm
  · show t.arrivals = _
    rw [ht.arrivals_eq]
    congr 1
    funext position
    exact (map_number (fun trip => trip.arrivals.getD position 0)
      fun _ _ _ => rfl).symm
  · rw [List.pairwise_iff_getElem]
    intro i j hi hj hij
    simp only [Array.length_toList, Timetable.number, Array.size_mapIdx] at hi hj
    have := List.pairwise_iff_getElem.mp ht.ordered i j (by simpa using hi) (by simpa using hj)
      hij
    simpa [Timetable.number, Trip.NeverAfter] using this

end Timetable

end JourneyPlanner
