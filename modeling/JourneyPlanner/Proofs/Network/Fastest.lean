import JourneyPlanner.Proofs.Network.Timetable

/-!
# The fastest run

A ride on the fastest run of a timetable is no longer than the same ride on one of its trips: both
are made of rides to the next position and of stays there, and each of them is as short as on the
trip where it is shortest.

* `FastestRun.Beats`: a run whose rides are no longer than those of a trip.
* `Timetable.Sound.yields_fastest`: the fastest run beats all trips.
-/

namespace JourneyPlanner

/-- The rides of a run to later positions are no longer than those of a trip. -/
def FastestRun.Beats (run : FastestRun) (trip : Trip) (length : Nat) : Prop :=
  ∀ i j, i < j → j < length →
    run.arrivals.getD j 0 - run.departures.getD i 0 ≤
      trip.arrivals.getD j 0 - trip.departures.getD i 0

namespace Timetable

variable {t : Timetable} {length : Nat}

theorem yields_leastOver {value : Trip → Checked Span} {span : Trip → Span}
    (hvalue : ∀ trip ∈ t.trips, Yields (value trip) (· = span trip)) :
    Yields (t.leastOver value) fun least => ∀ trip ∈ t.trips, least ≤ span trip := by
  have hmap := Yields.mapM_mem (f := value) (R := fun trip found => found = span trip)
    fun trip (htrip : trip ∈ t.trips.toList) => hvalue trip (Array.mem_toList_iff.mp htrip)
  refine hmap.bind fun values _ ⟨hvalues, _⟩ => ?_
  intro trip htrip
  obtain ⟨_, hmem, rfl⟩ := hvalues trip (Array.mem_toList_iff.mpr htrip)
  cases hmin : values.min? with
  | none =>
    rw [List.min?_eq_none_iff.mp hmin] at hmem
    cases hmem
  | some least => exact (List.min?_eq_some_iff.mp hmin).2 _ hmem

theorem Sound.yields_leastDwell (ht : t.Sound length) {position : Nat}
    (hposition : position < length) :
    Yields (t.leastDwell position) fun least => ∀ trip ∈ t.trips,
      least ≤ trip.departures.getD position 0 - trip.arrivals.getD position 0 := by
  apply yields_leastOver
  intro trip htrip
  have hfits := ht.fits trip htrip
  rw [hfits.departure_eq hposition, hfits.arrival_eq hposition]
  exact (yields_word _).mono fun _ _ h => h.1

theorem Sound.yields_leastRide (ht : t.Sound length) {position : Nat}
    (hposition : position + 1 < length) :
    Yields (t.leastRide position) fun least => ∀ trip ∈ t.trips,
      least ≤ trip.arrivals.getD (position + 1) 0 - trip.departures.getD position 0 := by
  apply yields_leastOver
  intro trip htrip
  have hfits := ht.fits trip htrip
  rw [hfits.departure_eq (Nat.lt_of_succ_lt hposition), hfits.arrival_eq hposition]
  exact (yields_word _).mono fun _ _ h => h.1

/-- The offsets after a departure: every ride to the next position, and every stay there, is no
longer than on any trip. -/
theorem Sound.yields_fastestFrom (ht : t.Sound length) {departure : Span} {first count : Nat}
    (hcount : first + count < length) :
    Yields (t.fastestFrom departure (List.range' first count)) fun offsets =>
      offsets.length = count ∧ ∀ n < count, ∀ trip ∈ t.trips,
        (offsets.map (·.1)).getD n 0 - (departure :: offsets.map (·.2)).getD n 0 ≤
          trip.arrivals.getD (first + n + 1) 0 - trip.departures.getD (first + n) 0 ∧
        (offsets.map (·.2)).getD n 0 - (offsets.map (·.1)).getD n 0 ≤
          trip.departures.getD (first + n + 1) 0 - trip.arrivals.getD (first + n + 1) 0 := by
  induction count generalizing departure first with
  | zero => exact ⟨rfl, fun n hn => by omega⟩
  | succ count ih =>
    rw [List.range'_succ, fastestFrom]
    refine (ht.yields_leastRide (by omega)).bind fun ride _ hride => ?_
    refine (yields_word _).bind ?_
    rintro arrival - ⟨rfl, -⟩
    refine (ht.yields_leastDwell (by omega)).bind fun dwell _ hdwell => ?_
    refine (yields_word _).bind ?_
    rintro next - ⟨rfl, -⟩
    refine (ih (by omega)).bind fun offsets _ ⟨hlength, hoffsets⟩ => ?_
    refine ⟨by rw [List.length_cons, hlength], ?_⟩
    intro n hn trip htrip
    cases n with
    | zero =>
      have := hride trip htrip
      have := hdwell trip htrip
      simp only [List.map_cons, List.getD_cons_zero, Nat.add_zero]
      constructor <;> linarith
    | succ n =>
      have := hoffsets n (by omega) trip htrip
      simpa only [List.map_cons, List.getD_cons_succ, Nat.add_assoc, Nat.add_comm 1] using this

/-- The fastest run of a timetable beats all its trips. -/
theorem Sound.yields_fastest (ht : t.Sound length) (hlength : 0 < length) :
    Yields t.fastest fun run => run.arrivals.size = length ∧ run.departures.size = length ∧
      (∀ trip ∈ t.trips, run.Beats trip length) ∧
      run.reluctance = (t.trips[0]?.map (·.reluctance)).getD 0 := by
  have hcount : t.length = length := by simp [Timetable.length, ht.departures_eq]
  refine (ht.yields_leastDwell hlength).bind fun first _ _ => ?_
  rw [hcount, List.range_eq_range']
  refine (ht.yields_fastestFrom (by omega)).bind fun offsets _ ⟨hsize, hoffsets⟩ => ?_
  have hsizes : (0 :: offsets.map (·.1)).toArray.size = length ∧
      (first :: offsets.map (·.2)).toArray.size = length := by
    simp only [List.size_toArray, List.length_cons, List.length_map, hsize]
    omega
  refine ⟨hsizes.1, hsizes.2, fun trip htrip i j hij hj => ?_, rfl⟩
  have harrival : ∀ n, (0 :: offsets.map (·.1)).toArray.getD (n + 1) 0 =
      (offsets.map (·.1)).getD n 0 := by simp
  have hdeparture : ∀ n, (first :: offsets.map (·.2)).toArray.getD n 0 =
      (first :: offsets.map (·.2)).getD n 0 := by simp
  induction j with
  | zero => omega
  | succ j ih =>
    obtain ⟨hride, -⟩ := hoffsets j (by omega) trip htrip
    rw [Nat.zero_add] at hride
    rw [harrival, hdeparture]
    rcases Nat.lt_succ_iff_lt_or_eq.mp hij with hlt | rfl
    · -- one more stay and one more ride
      have hbefore := ih hlt (by omega)
      obtain ⟨k, rfl⟩ : ∃ k, j = k + 1 := ⟨j - 1, by omega⟩
      obtain ⟨-, hdwell⟩ := hoffsets k (by omega) trip htrip
      rw [harrival, hdeparture] at hbefore
      rw [List.getD_cons_succ] at hride
      simp only [Nat.zero_add] at hdwell
      linarith
    · exact hride

end Timetable

end JourneyPlanner
