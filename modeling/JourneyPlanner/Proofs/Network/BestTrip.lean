import JourneyPlanner.Proofs.Network.Insertion

/-!
# The trip to take

A search that waits at a position takes the first trip that it may board there, in the order of its
direction. The ends of a column, halving and a scan of the trips find it, also where several trips
run at the same time or none runs at all.

* `Timetable.Boardable`: the trips that a search may board at a position from a time on.
* `Timetable.Boardable.noLater`: of two of them, the one that is met first is boarded no later.
* `Timetable.bestTrip_first`: the trip taken is the first of them, and there is none only if there
  are none of them.
-/

namespace JourneyPlanner

namespace Timetable

variable {t : Timetable} {d : Direction} {accepts : Trip → Bool} {time boarding boarding' : Time}
  {position rank rank' length : Nat} {trip trip' : Trip}

/-- A trip of a timetable that a search may board at a position from a time on: it is accepted, and
it is boarded at or after the time in the direction of the search. -/
structure Boardable (t : Timetable) (d : Direction) (accepts : Trip → Bool) (time : Time)
    (position rank : Nat) (trip : Trip) (boarding : Time) : Prop where
  at_rank : t.trips[rank]? = some trip
  accepted : accepts trip = true
  boards : d.boardTime trip position = .ok boarding
  in_time : d.NoLater time boarding

/-- The times at which a trip is boarded are those at its positions. -/
theorem Sound.boardable_iff (ht : t.Sound length) (hp : position < length) :
    (∃ boarding, t.Boardable d accepts time position rank trip boarding) ↔
      t.trips[rank]? = some trip ∧ accepts trip = true ∧
        d.NoLater time (d.boardingAt trip position) := by
  constructor
  · rintro ⟨boarding, hrank, haccepts, hboards, htime⟩
    rw [Direction.boardTime_eq_ok hboards] at htime
    exact ⟨hrank, haccepts, htime⟩
  · rintro ⟨hrank, haccepts, htime⟩
    have hfits := ht.fits trip (Array.mem_of_getElem? hrank)
    exact ⟨_, hrank, haccepts, hfits.boardTime hp d, htime⟩

/-- No trip is boarded before one that is met before it. -/
theorem Boardable.noLater (h : t.Boardable d accepts time position rank trip boarding)
    (h' : t.Boardable d accepts time position rank' trip' boarding') (ht : t.Sound length)
    (hrank : d.RankNoLater rank rank') : d.NoLater boarding boarding' := by
  rw [Direction.boardTime_eq_ok h.boards, Direction.boardTime_eq_ok h'.boards]
  cases d with
  | forward =>
    exact Direction.noLater_forward.mpr (ht.neverAfter hrank h.at_rank h'.at_rank position).1
  | reverse =>
    exact Direction.noLater_reverse.mpr (ht.neverAfter hrank h'.at_rank h.at_rank position).2

/-- Of the trips that a search may board, the one that it takes is found, with its rank. -/
theorem Sound.exists_bestTrip (ht : t.Sound length) (hp : position < length) (d : Direction)
    (accepts : Trip → Bool) (time : Time) :
    ∃ found, t.bestTrip d accepts time position = .ok found ∧
      t.IsBest d accepts time position (found.map (·.1)) ∧
      ∀ rank trip, found = some (rank, trip) → t.trips[rank]? = some trip :=
  (ht.yields_bestTrip hp d accepts time).exists_ok bestTrip_ne_overflow

/-- In a timetable made by insertions, a search takes the first trip that it may board, forwards the
one of the least rank and backwards the one of the greatest, and none if and only if it may board
none. So no trip that it may board is boarded before the one that it takes. -/
theorem bestTrip_first (h : Built length t) (hp : position < length) (d : Direction)
    (accepts : Trip → Bool) (time : Time) :
    ∃ found, t.bestTrip d accepts time position = .ok found ∧
      (found = none ↔
        ∀ rank trip boarding, ¬t.Boardable d accepts time position rank trip boarding) ∧
      ∀ rank trip, found = some (rank, trip) ↔
        ∃ boarding, t.Boardable d accepts time position rank trip boarding ∧
          ∀ rank' trip' boarding', t.Boardable d accepts time position rank' trip' boarding' →
            d.RankNoLater rank rank' ∧ d.NoLater boarding boarding' := by
  have ht := h.sound
  obtain ⟨found, hfound, hbest, htrip⟩ := ht.exists_bestTrip hp d accepts time
  refine ⟨found, hfound, ?_⟩
  cases found with
  | none =>
    have hnone : ∀ rank trip boarding,
        ¬t.Boardable d accepts time position rank trip boarding := by
      intro rank trip boarding hboardable
      obtain ⟨hrank, haccepts, htime⟩ := (ht.boardable_iff hp).mp ⟨boarding, hboardable⟩
      exact hbest rank trip hrank haccepts htime
    refine ⟨⟨fun _ => hnone, fun _ => rfl⟩, fun rank trip => ⟨nofun, ?_⟩⟩
    rintro ⟨boarding, hboardable, -⟩
    exact absurd hboardable (hnone rank trip boarding)
  | some best =>
    obtain ⟨rank, trip⟩ := best
    obtain ⟨trip₀, hrank, haccepts, htime, hleast⟩ := hbest
    obtain rfl := Option.some.inj ((htrip rank trip rfl).symm.trans hrank)
    obtain ⟨boarding, hboardable⟩ := (ht.boardable_iff hp).mpr ⟨hrank, haccepts, htime⟩
    have hfirst : ∀ rank' trip' boarding',
        t.Boardable d accepts time position rank' trip' boarding' →
          d.RankNoLater rank rank' ∧ d.NoLater boarding boarding' := by
      intro rank' trip' boarding' h'
      obtain ⟨hrank', haccepts', htime'⟩ := (ht.boardable_iff hp).mp ⟨boarding', h'⟩
      have hle := hleast rank' trip' hrank' haccepts' htime'
      exact ⟨hle, hboardable.noLater h' ht hle⟩
    refine ⟨⟨nofun, fun hnone => absurd hboardable (hnone rank trip boarding)⟩,
      fun rank' trip' => ⟨?_, ?_⟩⟩
    · rintro ⟨⟩
      exact ⟨boarding, hboardable, hfirst⟩
    · rintro ⟨boarding', h', hfirst'⟩
      obtain rfl : rank = rank' := Direction.RankNoLater.antisymm
        (hfirst rank' trip' boarding' h').1 (hfirst' rank trip boarding hboardable).1
      rw [Option.some.inj (hboardable.at_rank.symm.trans h'.at_rank)]

/-- Of two shuttles that depart at the same time a search takes the accepted one. Backwards it takes
none when the only one that arrives in time is refused. -/
theorem bestTrip_first_shuttles :
    let t := ((Timetable.empty 0 2).offerAll
      [shuttle 300 400, shuttle 100 150, shuttle 100 200]).1
    let accepts : Trip → Bool := fun trip => 150 < trip.arrivals.getD 1 0
    (t.bestTrip .forward accepts 100 0 = .ok (some (1, shuttle 100 200)) ∧
      ∀ rank trip boarding, t.Boardable .forward accepts 100 0 rank trip boarding → 1 ≤ rank) ∧
    (t.bestTrip .reverse accepts 199 1 = .ok none ∧
      ∀ rank trip boarding, ¬t.Boardable .reverse accepts 199 1 rank trip boarding) := by
  intro t accepts
  have hempty : Built 2 (Timetable.empty 0 2) := .empty 0
  have hbuilt : Built 2 t := (hempty.offerAll (by simp [shuttle_fits])).1
  constructor
  · have htaken : t.bestTrip .forward accepts 100 0 = .ok (some (1, shuttle 100 200)) := by
      decide +kernel
    obtain ⟨found, hfound, -, hfirst⟩ := bestTrip_first hbuilt Nat.zero_lt_two .forward accepts 100
    rw [htaken, Except.ok.injEq] at hfound
    obtain ⟨_, _, hleast⟩ := (hfirst 1 (shuttle 100 200)).mp hfound.symm
    exact ⟨htaken, fun rank trip boarding h => (hleast rank trip boarding h).1⟩
  · have htaken : t.bestTrip .reverse accepts 199 1 = .ok none := by decide +kernel
    obtain ⟨found, hfound, hnone, -⟩ := bestTrip_first hbuilt Nat.one_lt_two .reverse accepts 199
    rw [htaken, Except.ok.injEq] at hfound
    exact ⟨htaken, hnone.mp hfound.symm⟩

end Timetable

end JourneyPlanner
