import Mathlib.Algebra.BigOperators.Intervals
import Mathlib.Algebra.Order.BigOperators.Group.Finset
import JourneyPlanner.Proofs.Network.Fastest
import JourneyPlanner.Proofs.Network.Insertion

/-!
# Rides on the fastest run

The offsets of the fastest run add up the shortest stays and the shortest hops to the next position,
each taken over all trips. A ride on a trip takes as much longer as its own stays and hops do, so
that the fastest run rides exactly like the trips when they are all alike.

The offsets, and every stay and hop that is compared, have to be words. There is no fastest run
otherwise.

* `Timetable.arrivalOffset`, `Timetable.departureOffset`: the offsets as numbers of any size.
* `Timetable.ride_eq`: by how much a ride on a trip is longer.
* `Timetable.Sound.fastest_eq_ok_iff`: when there is a fastest run, and which one it is.
* `Timetable.fastest_rides`: what the fastest run of a timetable made by insertions is good for.
-/

namespace JourneyPlanner

/-! ### Stays and hops -/

namespace Trip

def stay (trip : Trip) (position : Nat) : Span :=
  trip.departures.getD position 0 - trip.arrivals.getD position 0

/-- How long a trip takes from a position to the next one. -/
def hop (trip : Trip) (position : Nat) : Span :=
  trip.arrivals.getD (position + 1) 0 - trip.departures.getD position 0

def ride (trip : Trip) (board alight : Nat) : Span :=
  trip.arrivals.getD alight 0 - trip.departures.getD board 0

/-- Two trips stay as long at every position, and take as long to the next one. -/
structure IsAlike (trip other : Trip) (length : Nat) : Prop where
  stay_eq : ∀ position < length, trip.stay position = other.stay position
  hop_eq : ∀ position, position + 1 < length → trip.hop position = other.hop position

/-- A trip never goes back in time, and the seconds from its first arrival to its last departure are
a word. -/
structure Advances (trip : Trip) (length : Nat) : Prop where
  stay_nonneg : ∀ position < length, 0 ≤ trip.stay position
  hop_nonneg : ∀ position, position + 1 < length → 0 ≤ trip.hop position
  isWord : IsWord (trip.departures.getD (length - 1) 0 - trip.arrivals.getD 0 0)

variable {trip : Trip} {i j length : Nat}

theorem ride_succ_self : trip.ride i (i + 1) = trip.hop i := rfl

/-- A longer ride stays at its last but one position and goes on to the last one. -/
theorem ride_succ : trip.ride i (j + 1) = trip.ride i j + trip.stay j + trip.hop j := by
  unfold ride stay hop
  ring

/-- Times of a trip that never goes back follow each other. -/
theorem Advances.arrival_le (h : trip.Advances length) (hij : i ≤ j) (hj : j < length) :
    trip.arrivals.getD i 0 ≤ trip.arrivals.getD j 0 := by
  induction j, hij using Nat.le_induction with
  | base => exact le_rfl
  | succ j _ ih =>
    have hbefore := ih (by omega)
    have hstay := h.stay_nonneg j (by omega)
    have hhop := h.hop_nonneg j hj
    unfold stay at hstay
    unfold hop at hhop
    linarith

/-- What passes between two times of a trip that never goes back is a word. -/
theorem Advances.span_le (h : trip.Advances length) (hj : j < length) :
    trip.departures.getD j 0 - trip.arrivals.getD 0 0 ≤ greatestWord := by
  have hlast := h.arrival_le (show j ≤ length - 1 by omega) (by omega)
  have hword := h.isWord.2
  rcases Nat.lt_or_ge j (length - 1) with hlt | hge
  · have hnext := h.arrival_le (show j + 1 ≤ length - 1 by omega) (by omega)
    have hhop := h.hop_nonneg j (by omega)
    have hstay := h.stay_nonneg (length - 1) (by omega)
    unfold hop at hhop
    unfold stay at hstay
    linarith
  · obtain rfl : j = length - 1 := by omega
    exact hword

end Trip

namespace Timetable

variable {t : Timetable} {trip : Trip} {span : Trip → Span} {length i j : Nat}

/-- The least of some spans of the trips, zero when there is no trip. -/
def shortest (t : Timetable) (span : Trip → Span) : Span :=
  ((t.trips.toList.map span).min?).getD 0

/-- The least span is no more than that of any trip. -/
theorem shortest_le (htrip : trip ∈ t.trips) : t.shortest span ≤ span trip := by
  have hmem : span trip ∈ t.trips.toList.map span :=
    List.mem_map_of_mem (Array.mem_toList_iff.mpr htrip)
  rw [shortest, List.min?_eq_some_min (List.ne_nil_of_mem hmem)]
  exact List.min_le_of_mem hmem

/-- The least span is that of a trip. -/
theorem exists_shortest (span : Trip → Span) (htrip : trip ∈ t.trips) :
    ∃ fastest ∈ t.trips, t.shortest span = span fastest := by
  have hmem : span trip ∈ t.trips.toList.map span :=
    List.mem_map_of_mem (Array.mem_toList_iff.mpr htrip)
  obtain ⟨fastest, hfastest, heq⟩ := List.mem_map.mp (List.min_mem (List.ne_nil_of_mem hmem))
  refine ⟨fastest, Array.mem_toList_iff.mp hfastest, ?_⟩
  rw [shortest, List.min?_eq_some_min (List.ne_nil_of_mem hmem)]
  exact heq.symm

/-! ### Offsets -/

/-- The offset of the arrival of the fastest run at a position, as a number of any size. -/
def arrivalOffset (t : Timetable) : Nat → Span
  | 0 => 0
  | position + 1 => t.arrivalOffset position + t.shortest (·.stay position) +
      t.shortest (·.hop position)

def departureOffset (t : Timetable) (position : Nat) : Span :=
  t.arrivalOffset position + t.shortest (·.stay position)

theorem arrivalOffset_succ (position : Nat) : t.arrivalOffset (position + 1) =
    t.departureOffset position + t.shortest (·.hop position) := rfl

/-- A ride on a trip is longer than the same ride on the fastest run by as much as its hops, and its
stays between them, are longer than the shortest ones. -/
theorem ride_eq (trip : Trip) (hij : i + 1 ≤ j) :
    trip.ride i j = t.arrivalOffset j - t.departureOffset i +
      (∑ k ∈ Finset.Ico i j, (trip.hop k - t.shortest (·.hop k)) +
        ∑ k ∈ Finset.Ico (i + 1) j, (trip.stay k - t.shortest (·.stay k))) := by
  induction j, hij using Nat.le_induction with
  | base =>
    rw [Trip.ride_succ_self, arrivalOffset_succ, Finset.sum_Ico_succ_top le_rfl, Finset.Ico_self,
      Finset.Ico_self, Finset.sum_empty, Finset.sum_empty]
    ring
  | succ j hij ih =>
    have hdeparture : t.departureOffset j = t.arrivalOffset j + t.shortest (·.stay j) := rfl
    rw [Trip.ride_succ, ih, arrivalOffset_succ, hdeparture,
      Finset.sum_Ico_succ_top (Nat.le_of_succ_le hij), Finset.sum_Ico_succ_top hij]
    ring

/-- The fastest run rides no longer than a trip. -/
theorem offsets_le_ride (htrip : trip ∈ t.trips) (hij : i < j) :
    t.arrivalOffset j - t.departureOffset i ≤ trip.ride i j := by
  rw [t.ride_eq trip hij]
  have hhops : 0 ≤ ∑ k ∈ Finset.Ico i j, (trip.hop k - t.shortest (·.hop k)) :=
    Finset.sum_nonneg fun k _ => sub_nonneg.mpr (shortest_le htrip)
  have hstays : 0 ≤ ∑ k ∈ Finset.Ico (i + 1) j, (trip.stay k - t.shortest (·.stay k)) :=
    Finset.sum_nonneg fun k _ => sub_nonneg.mpr (shortest_le htrip)
  linarith

/-- The fastest run rides like a trip that all trips are like. -/
theorem offsets_eq_ride (htrip : trip ∈ t.trips)
    (halike : ∀ other ∈ t.trips, other.IsAlike trip length) (hij : i < j) (hj : j < length) :
    t.arrivalOffset j - t.departureOffset i = trip.ride i j := by
  rw [t.ride_eq trip hij, Finset.sum_eq_zero, Finset.sum_eq_zero, add_zero, add_zero]
  · intro k hk
    obtain ⟨other, hother, hshortest⟩ := exists_shortest (·.stay k) htrip
    have hlt : k < length := (Finset.mem_Ico.mp hk).2.trans hj
    rw [hshortest, (halike other hother).stay_eq k hlt, sub_self]
  · intro k hk
    obtain ⟨other, hother, hshortest⟩ := exists_shortest (·.hop k) htrip
    have hlt : k + 1 < length := (Nat.succ_le_of_lt (Finset.mem_Ico.mp hk).2).trans_lt hj
    rw [hshortest, (halike other hother).hop_eq k hlt, sub_self]

/-! ### What has to be a word -/

/-- What the fastest run compares and adds up on the way to the next position are words. -/
structure MeasurableFrom (t : Timetable) (position : Nat) : Prop where
  hop : ∀ trip ∈ t.trips, IsWord (trip.hop position)
  arrival : IsWord (t.arrivalOffset (position + 1))
  stay : ∀ trip ∈ t.trips, IsWord (trip.stay (position + 1))
  departure : IsWord (t.departureOffset (position + 1))

/-- Everything that the fastest run compares and adds up are words. -/
structure Measurable (t : Timetable) (length : Nat) : Prop where
  stay : ∀ trip ∈ t.trips, IsWord (trip.stay 0)
  next : ∀ position, position + 1 < length → t.MeasurableFrom position

/-- Spans that are checked one after the other have to be words. -/
theorem mapM_word_eq_ok_iff {trips : List Trip} {value : Trip → Checked Span} {values : List Span}
    (hvalue : ∀ trip ∈ trips, value trip = word (span trip)) :
    trips.mapM value = .ok values ↔
      (∀ trip ∈ trips, IsWord (span trip)) ∧ trips.map span = values := by
  induction trips generalizing values with
  | nil => simp [pure, Except.pure]
  | cons trip trips ih =>
    have ih : ∀ values, trips.mapM value = .ok values ↔
        (∀ trip ∈ trips, IsWord (span trip)) ∧ trips.map span = values :=
      fun values => ih fun other hother => hvalue other (List.mem_cons_of_mem _ hother)
    simp only [List.mapM_cons, bind_eq_ok, hvalue trip List.mem_cons_self, word_eq_ok, ih,
      List.forall_mem_cons, List.map_cons, pure, Except.pure, Except.ok.injEq]
    constructor
    · rintro ⟨_, ⟨hword, rfl⟩, _, ⟨hwords, rfl⟩, rfl⟩
      exact ⟨⟨hword, hwords⟩, rfl⟩
    · rintro ⟨⟨hword, hwords⟩, rfl⟩
      exact ⟨_, ⟨hword, rfl⟩, _, ⟨hwords, rfl⟩, rfl⟩

/-- The least value exists exactly when all values are words, and it is the least of them. -/
theorem leastOver_eq_ok_iff {value : Trip → Checked Span} {least : Span}
    (hvalue : ∀ trip ∈ t.trips, value trip = word (span trip)) :
    t.leastOver value = .ok least ↔
      (∀ trip ∈ t.trips, IsWord (span trip)) ∧ t.shortest span = least := by
  have hvalues : ∀ values, t.trips.toList.mapM value = .ok values ↔
      (∀ trip ∈ t.trips.toList, IsWord (span trip)) ∧ t.trips.toList.map span = values :=
    fun values => mapM_word_eq_ok_iff fun trip htrip =>
      hvalue trip (Array.mem_toList_iff.mp htrip)
  simp only [leastOver, bind_eq_ok, hvalues, Array.mem_toList_iff, and_assoc, pure, Except.pure,
    Except.ok.injEq]
  constructor
  · rintro ⟨_, hwords, rfl, rfl⟩
    exact ⟨hwords, rfl⟩
  · rintro ⟨hwords, rfl⟩
    exact ⟨_, hwords, rfl, rfl⟩

/-- The shortest stay exists exactly when all stays at the position are words. -/
theorem Sound.leastDwell_eq_ok_iff (ht : t.Sound length) {position : Nat} {least : Span}
    (hposition : position < length) :
    t.leastDwell position = .ok least ↔
      (∀ trip ∈ t.trips, IsWord (trip.stay position)) ∧ t.shortest (·.stay position) = least := by
  apply leastOver_eq_ok_iff
  intro trip htrip
  have hfits := ht.fits trip htrip
  rw [hfits.departure_eq hposition, hfits.arrival_eq hposition]
  rfl

/-- The shortest way to the next position exists exactly when that of every trip is a word. -/
theorem Sound.leastRide_eq_ok_iff (ht : t.Sound length) {position : Nat} {least : Span}
    (hposition : position + 1 < length) :
    t.leastRide position = .ok least ↔
      (∀ trip ∈ t.trips, IsWord (trip.hop position)) ∧ t.shortest (·.hop position) = least := by
  apply leastOver_eq_ok_iff
  intro trip htrip
  have hfits := ht.fits trip htrip
  rw [hfits.departure_eq (Nat.lt_of_succ_lt hposition), hfits.arrival_eq hposition]
  rfl

/-- The offsets after the departure from a position. -/
theorem Sound.fastestFrom_eq_ok_iff (ht : t.Sound length) {first count : Nat}
    {offsets : List (Span × Span)} (hcount : first + count < length) :
    t.fastestFrom (t.departureOffset first) (List.range' first count) = .ok offsets ↔
      (∀ position ∈ List.range' first count, t.MeasurableFrom position) ∧
      (List.range' (first + 1) count).map (fun position =>
        (t.arrivalOffset position, t.departureOffset position)) = offsets := by
  induction count generalizing first offsets with
  | zero => simp [fastestFrom, pure, Except.pure]
  | succ count ih =>
    have ih : ∀ offsets, t.fastestFrom (t.departureOffset (first + 1))
        (List.range' (first + 1) count) = .ok offsets ↔
        (∀ position ∈ List.range' (first + 1) count, t.MeasurableFrom position) ∧
        (List.range' (first + 1 + 1) count).map (fun position =>
          (t.arrivalOffset position, t.departureOffset position)) = offsets :=
      fun offsets => ih (by omega)
    simp only [List.range'_succ, fastestFrom, bind_eq_ok,
      ht.leastRide_eq_ok_iff (show first + 1 < length by omega),
      ht.leastDwell_eq_ok_iff (show first + 1 < length by omega), word_eq_ok, pure, Except.pure,
      Except.ok.injEq, List.map_cons, List.forall_mem_cons]
    constructor
    · rintro ⟨_, ⟨hhop, rfl⟩, _, ⟨harrival, rfl⟩, _, ⟨hstay, rfl⟩, _, ⟨hdeparture, rfl⟩, rest,
        hrest, rfl⟩
      obtain ⟨hnext, rfl⟩ := (ih rest).mp hrest
      exact ⟨⟨⟨hhop, harrival, hstay, hdeparture⟩, hnext⟩, rfl⟩
    · rintro ⟨⟨⟨hhop, harrival, hstay, hdeparture⟩, hnext⟩, rfl⟩
      exact ⟨_, ⟨hhop, rfl⟩, _, ⟨harrival, rfl⟩, _, ⟨hstay, rfl⟩, _, ⟨hdeparture, rfl⟩, _,
        (ih _).mpr ⟨hnext, rfl⟩, rfl⟩

/-- The run with the offsets of a timetable. -/
def offsetRun (t : Timetable) (length : Nat) : FastestRun where
  arrivals := ((List.range length).map t.arrivalOffset).toArray
  departures := ((List.range length).map t.departureOffset).toArray
  reluctance := (t.trips[0]?.map (·.reluctance)).getD 0

/-- There is a fastest run if and only if all that it compares and adds up are words. -/
theorem Sound.fastest_eq_ok_iff (ht : t.Sound length) (hlength : 0 < length) {run : FastestRun} :
    t.fastest = .ok run ↔ t.Measurable length ∧ t.offsetRun length = run := by
  obtain ⟨count, rfl⟩ : ∃ count, length = count + 1 := ⟨length - 1, by omega⟩
  have hcount : t.length - 1 = count := by simp [Timetable.length, ht.departures_eq]
  have hmeasurable : t.Measurable (count + 1) ↔ (∀ trip ∈ t.trips, IsWord (trip.stay 0)) ∧
      ∀ position ∈ List.range' 0 count, t.MeasurableFrom position := by
    simp only [List.mem_range'_1, Nat.zero_add, Nat.zero_le, true_and]
    exact ⟨fun h => ⟨h.stay, fun position hlt => h.next position (by omega)⟩,
      fun h => ⟨h.1, fun position hlt => h.2 position (by omega)⟩⟩
  have hfirst : t.departureOffset 0 = t.shortest (·.stay 0) := zero_add _
  have hrun : t.offsetRun (count + 1) = {
      arrivals := (0 :: ((List.range' 1 count).map fun position =>
        (t.arrivalOffset position, t.departureOffset position)).map (·.1)).toArray
      departures := (t.shortest (·.stay 0) :: ((List.range' 1 count).map fun position =>
        (t.arrivalOffset position, t.departureOffset position)).map (·.2)).toArray
      reluctance := (t.trips[0]?.map (·.reluctance)).getD 0 } := by
    rw [offsetRun, List.range_eq_range', List.range'_succ, List.map_cons, List.map_cons, hfirst,
      List.map_map, List.map_map]
    rfl
  simp only [fastest, bind_eq_ok, ht.leastDwell_eq_ok_iff hlength, hcount, List.range_eq_range',
    pure, Except.pure, Except.ok.injEq, hmeasurable, hrun, ← hfirst]
  constructor
  · rintro ⟨_, ⟨hstay, rfl⟩, offsets, hoffsets, rfl⟩
    obtain ⟨hnext, rfl⟩ := (ht.fastestFrom_eq_ok_iff (by omega)).mp hoffsets
    exact ⟨⟨hstay, hnext⟩, rfl⟩
  · rintro ⟨⟨hstay, hnext⟩, rfl⟩
    exact ⟨_, ⟨hstay, rfl⟩, _, (ht.fastestFrom_eq_ok_iff (by omega)).mpr ⟨hnext, rfl⟩, rfl⟩

theorem getD_offsetRun_arrivals (hi : i < length) :
    (t.offsetRun length).arrivals.getD i 0 = t.arrivalOffset i := by
  simp [offsetRun, hi]

theorem getD_offsetRun_departures (hi : i < length) :
    (t.offsetRun length).departures.getD i 0 = t.departureOffset i := by
  simp [offsetRun, hi]

/-! ### Trips that never go back -/

theorem shortest_nonneg (htrip : trip ∈ t.trips) (h : ∀ other ∈ t.trips, 0 ≤ span other) :
    0 ≤ t.shortest span := by
  obtain ⟨fastest, hfastest, hshortest⟩ := exists_shortest span htrip
  rw [hshortest]
  exact h fastest hfastest

/-- The fastest run arrives no later after its start than a trip. -/
theorem arrivalOffset_le (htrip : trip ∈ t.trips) (j : Nat) :
    t.arrivalOffset j ≤ trip.arrivals.getD j 0 - trip.arrivals.getD 0 0 := by
  cases j with
  | zero => exact (sub_self _).ge
  | succ j =>
    have hride := offsets_le_ride htrip (Nat.zero_lt_succ j)
    have hstay : t.departureOffset 0 ≤ trip.stay 0 := (zero_add _).trans_le (shortest_le htrip)
    unfold Trip.ride at hride
    unfold Trip.stay at hstay
    linarith

/-- The fastest run of trips that never go back never goes back either. -/
theorem arrivalOffset_nonneg (htrip : trip ∈ t.trips)
    (hadvances : ∀ other ∈ t.trips, other.Advances length) {j : Nat} (hj : j < length) :
    0 ≤ t.arrivalOffset j := by
  induction j with
  | zero => exact le_rfl
  | succ j ih =>
    have hstay := shortest_nonneg htrip fun other hother =>
      (hadvances other hother).stay_nonneg j (by omega)
    have hhop := shortest_nonneg htrip fun other hother => (hadvances other hother).hop_nonneg j hj
    exact add_nonneg (add_nonneg (ih (by omega)) hstay) hhop

/-- All that the fastest run of trips that never go back compares and adds up lies between zero and
what passes on a trip. -/
theorem measurable_of_advances (htrip : trip ∈ t.trips)
    (hadvances : ∀ other ∈ t.trips, other.Advances length) (hlength : 0 < length) :
    t.Measurable length := by
  have hword : ∀ other ∈ t.trips, ∀ j < length, ∀ span : Span, 0 ≤ span →
      span ≤ other.departures.getD j 0 - other.arrivals.getD 0 0 → IsWord span :=
    fun other hother j hj span hnonneg hle =>
      ⟨le_trans (by decide) hnonneg, hle.trans ((hadvances other hother).span_le hj)⟩
  have hstay : ∀ other ∈ t.trips, ∀ j < length, IsWord (other.stay j) := by
    intro other hother j hj
    have hadvance := hadvances other hother
    apply hword other hother j hj _ (hadvance.stay_nonneg j hj)
    exact sub_le_sub_left (hadvance.arrival_le (Nat.zero_le j) hj) _
  refine ⟨fun other hother => hstay other hother 0 hlength, fun j hj => ?_⟩
  have harrival := arrivalOffset_nonneg htrip hadvances hj
  have harrives := arrivalOffset_le htrip (j + 1)
  have hleast : 0 ≤ t.shortest (·.stay (j + 1)) :=
    shortest_nonneg htrip fun other hother => (hadvances other hother).stay_nonneg _ hj
  have hleast' : t.shortest (·.stay (j + 1)) ≤ trip.stay (j + 1) := shortest_le htrip
  have hstays : trip.stay (j + 1) =
    trip.departures.getD (j + 1) 0 - trip.arrivals.getD (j + 1) 0 := rfl
  constructor
  case hop =>
    intro other hother
    have hadvance := hadvances other hother
    apply hword other hother (j + 1) hj _ (hadvance.hop_nonneg j hj)
    have hbefore := hadvance.arrival_le (Nat.zero_le j) (by omega)
    have hdeparts := hadvance.stay_nonneg j (by omega)
    have hafter := hadvance.stay_nonneg (j + 1) hj
    unfold Trip.hop
    unfold Trip.stay at hdeparts hafter
    linarith
  case arrival => exact hword trip htrip (j + 1) hj _ harrival (by linarith)
  case stay => exact fun other hother => hstay other hother (j + 1) hj
  case departure =>
    have hdeparture : t.departureOffset (j + 1) =
      t.arrivalOffset (j + 1) + t.shortest (·.stay (j + 1)) := rfl
    exact hword trip htrip (j + 1) hj _ (by linarith) (by linarith)

end Timetable

/-! ### The fastest run as a lower bound -/

/-- The rides of a run to later positions are as long as those of a trip. -/
def FastestRun.Matches (run : FastestRun) (trip : Trip) (length : Nat) : Prop :=
  ∀ i j, i < j → j < length →
    run.arrivals.getD j 0 - run.departures.getD i 0 =
      trip.arrivals.getD j 0 - trip.departures.getD i 0

namespace Timetable

variable {t : Timetable} {length : Nat}

/-- A timetable that is made by insertions has a fastest run unless something that it compares or
adds up is not a word, which is so for trips that never go back only if one of them takes longer
than a word can say. No ride on the fastest run is longer than the same ride on a trip, and all are
as long if all trips are alike. -/
theorem fastest_rides (h : Built length t) (hlength : 0 < length) (hsome : t.size ≠ 0) :
    (t.fastest = .error .overflow ↔ ¬t.Measurable length) ∧
    ((∀ trip ∈ t.trips, trip.Advances length) → t.Measurable length) ∧
    (t.Measurable length → ∃ run, t.fastest = .ok run ∧
      run.arrivals.size = length ∧ run.departures.size = length ∧
      ∀ trip ∈ t.trips, run.Beats trip length ∧
        ((∀ other ∈ t.trips, other.IsAlike trip length) → run.Matches trip length)) := by
  have ht := h.sound
  obtain ⟨trip, htrip⟩ : ∃ trip, trip ∈ t.trips := ⟨_, Array.getElem_mem (Nat.pos_of_ne_zero hsome)⟩
  refine ⟨?_, fun hadvances => measurable_of_advances htrip hadvances hlength, ?_⟩
  · constructor
    · intro hoverflow hmeasurable
      rw [(ht.fastest_eq_ok_iff hlength).mpr ⟨hmeasurable, rfl⟩] at hoverflow
      cases hoverflow
    · intro hmeasurable
      cases hfastest : t.fastest with
      | ok run => exact absurd ((ht.fastest_eq_ok_iff hlength).mp hfastest).1 hmeasurable
      | error fault => rw [(ht.yields_fastest hlength).of_error hfastest]
  · intro hmeasurable
    have hfastest := (ht.fastest_eq_ok_iff hlength).mpr ⟨hmeasurable, rfl⟩
    obtain ⟨harrivals, hdepartures, hbeats, -⟩ := (ht.yields_fastest hlength).of_ok hfastest
    refine ⟨_, hfastest, harrivals, hdepartures, fun trip htrip => ⟨hbeats trip htrip, ?_⟩⟩
    intro halike i j hij hj
    rw [getD_offsetRun_arrivals hj, getD_offsetRun_departures (hij.trans hj)]
    exact offsets_eq_ride htrip halike hij hj

/-- A trip between two stops that waits at the first one. -/
def waiting (arrival departure next : Time) : Trip :=
  { shuttle departure next with arrivals := #[arrival, next] }

theorem waiting_fits (arrival departure next : Time) : (waiting arrival departure next).Fits 2 :=
  ⟨rfl, rfl⟩

theorem stay_shuttle {departure arrival : Time} {position : Nat} (hposition : position < 2) :
    (shuttle departure arrival).stay position = 0 := by
  have hcases : position = 0 ∨ position = 1 := by omega
  rcases hcases with rfl | rfl <;> exact sub_self _

/-- The fastest run of two shuttles that take as long rides like both. Of two trips that wait, one
of them for more seconds than a word can say, there is none, although the shorter wait is a word. -/
theorem fastest_rides_shuttles :
    let shuttles := ((Timetable.empty 0 2).offerAll [shuttle 300 400, shuttle 100 200]).1
    let waits := ((Timetable.empty 0 2).offerAll
      [waiting (-2000000000) (-1900000000) (-1800000000),
        waiting (-2000000000) 2000000000 2000000100]).1
    (∃ run, shuttles.fastest = .ok run ∧ ∀ trip ∈ shuttles.trips, run.Matches trip 2) ∧
    waits.trips.map (·.stay 0) = #[100000000, 4000000000] ∧
    waits.fastest = .error .overflow := by
  intro shuttles waits
  have hempty : Built 2 (Timetable.empty 0 2) := .empty 0
  constructor
  · have hbuilt : Built 2 shuttles := (hempty.offerAll (by simp [shuttle_fits])).1
    have htrips : shuttles.trips = #[shuttle 100 200, shuttle 300 400] := by decide +kernel
    have hstay : ∀ trip ∈ shuttles.trips, ∀ position < 2, trip.stay position = 0 := by
      intro trip htrip position hposition
      have hcases : trip = shuttle 100 200 ∨ trip = shuttle 300 400 := by simpa [htrips] using htrip
      rcases hcases with rfl | rfl <;> exact stay_shuttle hposition
    have hhop : ∀ trip ∈ shuttles.trips, trip.hop 0 = 100 := by
      rw [htrips]
      decide
    obtain ⟨-, hadvances, hrun⟩ :=
      fastest_rides hbuilt Nat.zero_lt_two (by rw [Timetable.size, htrips]; decide)
    have hmeasurable : shuttles.Measurable 2 := by
      refine hadvances fun trip htrip => ⟨?_, ?_, ?_⟩
      · exact fun position hposition => (hstay trip htrip position hposition).ge
      · intro position hposition
        obtain rfl : position = 0 := by omega
        rw [hhop trip htrip]
        decide
      · revert trip
        rw [htrips]
        decide
    obtain ⟨run, hfastest, -, -, hrides⟩ := hrun hmeasurable
    refine ⟨run, hfastest, fun trip htrip => (hrides trip htrip).2 fun other hother => ?_⟩
    constructor
    case stay_eq =>
      intro position hposition
      rw [hstay trip htrip position hposition, hstay other hother position hposition]
    case hop_eq =>
      intro position hposition
      obtain rfl : position = 0 := by omega
      rw [hhop trip htrip, hhop other hother]
  · have hbuilt : Built 2 waits := (hempty.offerAll (by simp [waiting_fits])).1
    have hstays : waits.trips.map (·.stay 0) = #[100000000, 4000000000] := by decide +kernel
    have hsize : waits.size ≠ 0 := by decide +kernel
    obtain ⟨hoverflow, -, -⟩ := fastest_rides hbuilt Nat.zero_lt_two hsize
    refine ⟨hstays, hoverflow.mpr fun hmeasurable => ?_⟩
    have hlong : (4000000000 : Span) ∈ waits.trips.map (·.stay 0) := by simp [hstays]
    obtain ⟨trip, htrip, hstay⟩ := Array.mem_map.mp hlong
    have hword := hmeasurable.stay trip htrip
    rw [hstay] at hword
    exact absurd hword (by decide)

end Timetable

end JourneyPlanner
