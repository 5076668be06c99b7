import JourneyPlanner.Proofs.Search.Bounds
import JourneyPlanner.Proofs.Search.Coherence
import JourneyPlanner.Search.Route

/-!
# The tables of a search

A search writes to tables that have a place for every stop of the network. Writing to a place that
a table does not have is no fault, but without effect, so that a search would not notice it. It
never happens: the tables keep their sizes, and an arrival outside the network is not written.

* `Labels.Fits`, `BoundState.Fits`: the tables have the sizes that a search needs.
* `Labels.HasPlace`, `BoundState.HasPlace`: a stop has its places in the tables.
* `LabelScene.Confined`, `BoundState.Confined`: arrivals are written to such places.
* `Network.Confines`: this is so in all states of both searches for a request.
-/

namespace JourneyPlanner

/-! ### Labels -/

namespace Labels

/-- The sets and the fronts of the current round have one place for every stop. -/
structure Fits (s : Labels) (stopCount : Nat) : Prop where
  fronts : ∃ stops, s.fronts[s.round]? = some stops ∧ stops.size = stopCount
  touched : s.touched.marks.size = stopCount
  reached : s.reached.marks.size = stopCount
  ridden : s.ridden.marks.size = stopCount

/-- A stop has a place everywhere where an arrival is written. -/
structure HasPlace (s : Labels) (stop : StopId) : Prop where
  front : ∃ front, s.front s.round stop = .ok front
  touched : stop < s.touched.marks.size
  ridden : stop < s.ridden.marks.size

variable {s : Labels} {d : Direction} {stopCount maxRounds : Nat} {stop : StopId} {label : Label}

theorem Sound.fits (h : s.Sound d stopCount maxRounds) : s.Fits stopCount where
  fronts := by
    have hlt : s.round < s.fronts.size := by
      rw [h.fronts_size]
      exact Nat.lt_succ_of_le h.round_le
    exact ⟨_, Array.getElem?_eq_getElem hlt, h.stops_size (Array.getElem?_eq_getElem hlt)⟩
  touched := h.touched_size
  reached := h.reached_size
  ridden := h.ridden_size

namespace Fits

theorem hasPlace (h : s.Fits stopCount) (hstop : stop < stopCount) : s.HasPlace stop where
  front := by
    obtain ⟨stops, hstops, hsize⟩ := h.fronts
    have hlt : stop < stops.size := hsize ▸ hstop
    refine ⟨stops[stop], ?_⟩
    rw [Labels.front, fetch_of_getElem? hstops]
    exact fetch_of_getElem? (Array.getElem?_eq_getElem hlt)
  touched := h.touched ▸ hstop
  ridden := h.ridden ▸ hstop

/-- One more label leaves the sizes of the tables as they are. -/
theorem register (h : s.Fits stopCount) : (s.register d label).Fits stopCount where
  fronts := by
    obtain ⟨stops, hstops, hsize⟩ := h.fronts
    simp [Labels.register, Array.getElem?_modify, hstops, hsize]
  touched := by simpa [Labels.register] using h.touched
  reached := h.reached
  ridden := by
    have := h.ridden
    simp only [Labels.register]
    split <;> simpa

end Fits

end Labels

namespace LabelScene

variable {c : LabelScene} {course : Course} {s : Labels} {stop : StopId}

/-- The tables of a state fit, and whatever arrives next is written to places that they have. They
still fit then, so that the same holds of the arrivals after it. -/
structure Confined (c : LabelScene) (s : Labels) : Prop where
  fits : s.Fits c.stopCount
  inside : ∀ {stop : StopId} {time : Time} {cost : Cost} {origin : Origin} {s' : Labels},
    c.arrive stop time cost origin s = .ok s' → s' = s ∨ s.HasPlace stop ∧ s'.Fits c.stopCount

/-- An arrival that changes a state is one at a stop of the network. -/
theorem eq_or_register_of_arrive {time : Time} {cost : Cost} {origin : Origin} {s' : Labels}
    (h : c.arrive stop time cost origin s = .ok s') : s' = s ∨ stop < c.stopCount ∧
      s' = s.register c.direction ⟨stop, s.round, s.iteration, time, cost, origin⟩ := by
  unfold arrive at h
  split at h
  case isTrue => exact .inl (Except.ok.inj h).symm
  case isFalse hstop =>
    obtain ⟨covered, -, h⟩ := bind_eq_ok.mp h
    split at h
    case isTrue => exact .inl (Except.ok.inj h).symm
    case isFalse =>
      obtain ⟨hopeless, -, h⟩ := bind_eq_ok.mp h
      split at h
      case isTrue => exact .inl (Except.ok.inj h).symm
      case isFalse => exact .inr ⟨Nat.lt_of_not_le hstop, (Except.ok.inj h).symm⟩

/-- Tables that fit have a place for whatever arrives next. -/
theorem confined_of_fits (h : s.Fits c.stopCount) : c.Confined s where
  fits := h
  inside harrive := by
    rcases eq_or_register_of_arrive harrive with rfl | ⟨hstop, rfl⟩
    · exact .inl rfl
    · exact .inr ⟨h.hasPlace hstop, h.register⟩

end LabelScene

/-! ### Bounds -/

namespace BoundState

/-- The sets and the table of bounds have one place for every stop. -/
structure Fits (s : BoundState) (stopCount : Nat) : Prop where
  stops : s.stops.size = stopCount
  touched : s.touched.marks.size = stopCount
  reached : s.reached.marks.size = stopCount
  ridden : s.ridden.marks.size = stopCount

/-- A stop has a place everywhere where an arrival is written. -/
structure HasPlace (s : BoundState) (stop : StopId) : Prop where
  stops : stop < s.stops.size
  touched : stop < s.touched.marks.size
  ridden : stop < s.ridden.marks.size

/-- The tables of a state fit, and whatever arrives next is written to places that they have. They
still fit then, so that the same holds of the arrivals after it. -/
structure Confined (s : BoundState) (stopCount : Nat) : Prop where
  fits : s.Fits stopCount
  inside : ∀ (stop : StopId) (duration : Span) (cost : Cost) (onBoard : Bool),
    s.arrive stop duration cost onBoard = s ∨
      s.HasPlace stop ∧ (s.arrive stop duration cost onBoard).Fits stopCount

variable {s : BoundState} {stopCount : Nat}

theorem Fits.inside (h : s.Fits stopCount) (stop : StopId) (duration : Span) (cost : Cost)
    (onBoard : Bool) : s.arrive stop duration cost onBoard = s ∨
      s.HasPlace stop ∧ (s.arrive stop duration cost onBoard).Fits stopCount := by
  have harrives := s.arrives stop duration cost onBoard
  generalize s.arrive stop duration cost onBoard = s' at harrives ⊢
  cases harrives with
  | outside | kept => exact .inl rfl
  | lowered hb hridden =>
    have hstop := (Array.getElem?_eq_some_iff.mp hb).1
    have hlt : stop < stopCount := h.stops ▸ hstop
    refine .inr ⟨⟨hstop, h.touched ▸ hlt, h.ridden ▸ hlt⟩, ?_⟩
    constructor
    case stops => simpa using h.stops
    case touched => simpa using h.touched
    case reached => exact h.reached
    case ridden =>
      rcases hridden with rfl | ⟨rfl, -⟩
      · simpa using h.ridden
      · exact h.ridden

theorem Fits.arrive (h : s.Fits stopCount) (stop : StopId) (duration : Span) (cost : Cost)
    (onBoard : Bool) : (s.arrive stop duration cost onBoard).Fits stopCount := by
  rcases h.inside stop duration cost onBoard with heq | ⟨-, hfits⟩
  · rw [heq]
    exact h
  · exact hfits

theorem fits_new : (new stopCount).Fits stopCount where
  stops := Array.size_replicate
  touched := IndexSet.size_empty
  reached := IndexSet.size_empty
  ridden := IndexSet.size_empty

end BoundState

namespace BoundScene

variable {c : BoundScene} {course : Course} {s s' : BoundState} {stopCount : Nat} {stop : StopId}

/-- A search for bounds that leaves a run which it is on arrives there. -/
theorem eq_or_arrive_of_alight {ride : BoundRide} {position : Nat}
    (h : c.alight ride stop position s = .ok s') :
    s' = s ∨ ∃ duration cost, s' = s.arrive stop duration cost true := by
  unfold alight at h
  split at h
  case h_1 => exact .inl (Except.ok.inj h).symm
  case h_2 =>
    obtain ⟨offset, -, h⟩ := bind_eq_ok.mp h
    obtain ⟨duration, -, h⟩ := bind_eq_ok.mp h
    obtain ⟨riding, -, h⟩ := bind_eq_ok.mp h
    obtain ⟨ridden, -, h⟩ := bind_eq_ok.mp h
    obtain ⟨cost, -, h⟩ := bind_eq_ok.mp h
    exact .inr ⟨duration, cost, (Except.ok.inj h).symm⟩

theorem fits_of_alight {ride : BoundRide} {position : Nat} (h : s.Fits stopCount)
    (halight : c.alight ride stop position s = .ok s') : s'.Fits stopCount := by
  rcases eq_or_arrive_of_alight halight with rfl | ⟨duration, cost, rfl⟩
  · exact h
  · exact h.arrive ..

theorem fits_of_walk {walks : List Walk} (h : s.Fits stopCount)
    (hwalk : c.walk stop walks s = .ok s') : s'.Fits stopCount := by
  obtain ⟨b, -, hwalk⟩ := bind_eq_ok.mp hwalk
  split at hwalk
  · cases hwalk
    exact h
  · refine foldlM_keeps (I := (·.Fits stopCount)) h ?_ hwalk
    intro s₁ walk _ h₁ s₂ hstep
    obtain ⟨duration, -, hstep⟩ := bind_eq_ok.mp hstep
    obtain ⟨price, -, hstep⟩ := bind_eq_ok.mp hstep
    obtain ⟨cost, -, hstep⟩ := bind_eq_ok.mp hstep
    cases hstep
    exact h₁.arrive ..

/-- All operations of a search for bounds keep the sizes of its tables. -/
theorem keeps_fits : (boundScheme c).Keeps course (fun _ s => s.Fits stopCount) fun _ _ => True where
  start _ h := ⟨h.stops, IndexSet.size_clear.trans h.touched, IndexSet.size_clear.trans h.reached,
    IndexSet.size_clear.trans h.ridden⟩
  seed _ h hseed := by
    cases hseed
    exact h.arrive ..
  seedOnBoard _ h hseed := by
    cases hseed
    exact h.arrive ..
  advance _ h hadvance := by
    cases hadvance
    exact ⟨h.stops, IndexSet.size_clear.trans h.touched, h.touched,
      IndexSet.size_clear.trans h.ridden⟩
  enter _ := trivial
  alight h _ halight := ⟨fits_of_alight h halight, trivial⟩
  board _ _ _ _ _ := trivial
  walk h hwalk := fits_of_walk h hwalk
  finish h hfinish := by
    cases hfinish
    exact h

end BoundScene

/-! ### Searches for a request -/

/-- Asserted before and after all operations of both searches for a request, it never fails that
arrivals are written to places that the tables have. -/
structure Network.Confines (net : Network) (request : Request) : Prop where
  labels : ∀ tariff bounds deadline times,
    let c := net.labelScene request tariff bounds
    let course := net.labelCourse request
    run ((labelScheme c).asserting c.Confined) course deadline (net.labelProgress request) times =
      run (labelScheme c) course deadline (net.labelProgress request) times
  bounds : ∀ tariff deadline times,
    let d := request.direction.opposite
    let scheme := boundScheme ⟨d, tariff, request.rules net⟩
    let course : Course := ⟨net, d, request.maxRounds, request.searchEgress⟩
    run (scheme.asserting (·.Confined net.stopCount)) course deadline
        (.new course (.new net.stopCount)) times =
      run scheme course deadline (.new course (.new net.stopCount)) times

/-- Every state that a search passes through is confined, whatever the request asks for. -/
theorem Network.confines (net : Network) (request : Request) : net.Confines request where
  labels := by
    intro tariff bounds deadline times c course
    have hnew : c.InOrder course 0 (net.labelProgress request).state :=
      ⟨Labels.new_sound, Labels.Coherent.new, rfl⟩
    exact ((LabelScene.keeps_inOrder rfl).same_run
      (fun _ _ h => LabelScene.confined_of_fits h.sound.fits) ⟨0, hnew⟩).eq
  bounds := by
    intro tariff deadline times d scheme course
    exact (BoundScene.keeps_fits.same_run (fun _ _ h => ⟨h, h.inside⟩)
      ⟨0, BoundState.fits_new⟩).eq

end JourneyPlanner
