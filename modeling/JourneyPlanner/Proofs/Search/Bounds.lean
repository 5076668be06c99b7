import JourneyPlanner.Search.Bounds
import JourneyPlanner.Proofs.Network.Fastest
import JourneyPlanner.Proofs.Search.Rounds
import JourneyPlanner.Proofs.Tariff

/-!
# The search for bounds

What the rounds of the search for bounds find. Values at a stop only get lower, and a stop whose
values get lower is ridden from, or walked from, in the same round or the next one.

* `StopBound.AtMost`, `BoundState.Found`: how low the values at a stop are.
* `BoundState.Lowers`: what any part of a round does to the values and the marks.
* `BoundScene.Rides`, `BoundScene.Walks`: what the rides and the walks of a round find.
* `BoundScene.yields_transitRound`, `BoundScene.yields_boardRound`, `BoundScene.yields_walkRound`: a
  round finds just that.
-/

namespace JourneyPlanner

/-- The least price of boarding a pattern at a position: none where a rule may let the traveller
stay seated. -/
def Tariff.leastBoarding (tariff : Tariff) (rules : Option RuleIndex) (d : Direction)
    (pattern : PatternId) (position : Nat) : Cost :=
  match rules with
  | some index => if (index.rulesOf d pattern).staySeatedAt position then 0 else tariff.board
  | none => tariff.board

/-! ### Values at a stop -/

/-- The values at a stop are no more than given ones, those of arrivals on board included if they
are asked for. Costs are compared if they are `priced`. -/
structure StopBound.AtMost (b : StopBound) (priced : Prop) (onBoard : Bool) (duration : Span)
    (cost : Cost) : Prop where
  duration_le : b.duration ≤ duration
  cost_le : priced → b.cost ≤ cost
  rideDuration_le : onBoard = true → b.rideDuration ≤ duration
  rideCost_le : onBoard = true → priced → b.rideCost ≤ cost

/-- No value at a stop is more than before. -/
structure StopBound.NoMore (b' b : StopBound) : Prop where
  duration_le : b'.duration ≤ b.duration
  cost_le : b'.cost ≤ b.cost
  rideDuration_le : b'.rideDuration ≤ b.rideDuration
  rideCost_le : b'.rideCost ≤ b.rideCost
  rides_le : b'.rides ≤ b.rides

namespace StopBound

variable {b b' b'' : StopBound} {priced : Prop} {onBoard : Bool} {duration duration' : Span}
  {cost cost' : Cost}

theorem NoMore.refl (b : StopBound) : b.NoMore b := ⟨le_rfl, le_rfl, le_rfl, le_rfl, le_rfl⟩

theorem NoMore.trans (h : b''.NoMore b') (h' : b'.NoMore b) : b''.NoMore b where
  duration_le := h.duration_le.trans h'.duration_le
  cost_le := h.cost_le.trans h'.cost_le
  rideDuration_le := h.rideDuration_le.trans h'.rideDuration_le
  rideCost_le := h.rideCost_le.trans h'.rideCost_le
  rides_le := h.rides_le.trans h'.rides_le

theorem AtMost.noMore (h : b.AtMost priced onBoard duration cost) (h' : b'.NoMore b) :
    b'.AtMost priced onBoard duration cost where
  duration_le := h'.duration_le.trans h.duration_le
  cost_le hpriced := h'.cost_le.trans (h.cost_le hpriced)
  rideDuration_le honBoard := h'.rideDuration_le.trans (h.rideDuration_le honBoard)
  rideCost_le honBoard hpriced := h'.rideCost_le.trans (h.rideCost_le honBoard hpriced)

/-- Values that are no more than given ones are no more than greater ones. -/
theorem AtMost.weaken (h : b.AtMost priced onBoard duration cost) (hduration : duration ≤ duration')
    (hcost : priced → cost ≤ cost') : b.AtMost priced onBoard duration' cost' where
  duration_le := h.duration_le.trans hduration
  cost_le hpriced := (h.cost_le hpriced).trans (hcost hpriced)
  rideDuration_le honBoard := (h.rideDuration_le honBoard).trans hduration
  rideCost_le honBoard hpriced := (h.rideCost_le honBoard hpriced).trans (hcost hpriced)

/-- The values at a stop after one more arrival. -/
def after (b : StopBound) (duration : Span) (cost : Cost) (onBoard : Bool) (round : Nat) :
    StopBound where
  duration := min b.duration duration
  cost := min b.cost cost
  rideDuration := if onBoard then min b.rideDuration duration else b.rideDuration
  rideCost := if onBoard then min b.rideCost cost else b.rideCost
  rides := min b.rides round

theorem after_noMore {round : Nat} : (b.after duration cost onBoard round).NoMore b := by
  refine ⟨min_le_left _ _, min_le_left _ _, ?_, ?_, min_le_left _ _⟩
  · cases onBoard with
    | false => exact le_rfl
    | true => exact min_le_left _ _
  · cases onBoard with
    | false => exact le_rfl
    | true => exact min_le_left _ _

/-- After an arrival the values at the stop are no more than its own. -/
theorem after_atMost {round : Nat} :
    (b.after duration cost onBoard round).AtMost priced onBoard duration cost := by
  refine ⟨min_le_right _ _, fun _ => min_le_right _ _, ?_, ?_⟩
  · rintro rfl
    exact min_le_right _ _
  · rintro rfl -
    exact min_le_right _ _

end StopBound

/-! ### Arriving -/

namespace BoundState

/-- The tables have one entry for every stop, and a stop that is reached is so by as many rides as
there were rounds, or by fewer. -/
structure Sound (s : BoundState) (stopCount : Nat) : Prop where
  stops_size : s.stops.size = stopCount
  touched_size : s.touched.marks.size = stopCount
  reached_size : s.reached.marks.size = stopCount
  ridden_size : s.ridden.marks.size = stopCount
  rides_le : ∀ {stop : Nat} {b : StopBound}, s.stops[stop]? = some b → b.duration < unreached →
    b.rides ≤ s.round

/-- The values found at a stop are no more than given ones. -/
def Found (s : BoundState) (priced : Prop) (stop : StopId) (onBoard : Bool) (duration : Span)
    (cost : Cost) : Prop :=
  ∃ b, s.stops[stop]? = some b ∧ b.AtMost priced onBoard duration cost

/-- What a part of a round does: values get lower, and a stop where one does is marked. -/
structure Lowers (s s' : BoundState) : Prop where
  size_eq : s'.stops.size = s.stops.size
  noMore : ∀ {stop : Nat} {b b' : StopBound}, s.stops[stop]? = some b →
    s'.stops[stop]? = some b' → b'.NoMore b
  round_eq : s'.round = s.round
  reached_eq : s'.reached = s.reached
  touched : ∀ {stop : Nat}, s'.touched.contains stop = false →
    s.touched.contains stop = false ∧ s'.stops[stop]? = s.stops[stop]?
  ridden : ∀ {stop : Nat}, s'.ridden.contains stop = false → s.ridden.contains stop = false ∧
    ∀ {b b' : StopBound}, s.stops[stop]? = some b → s'.stops[stop]? = some b' →
      b'.rideDuration = b.rideDuration ∧ b'.rideCost = b.rideCost

variable {s s' s'' : BoundState} {stopCount stop : Nat} {priced : Prop} {onBoard : Bool}
  {duration duration' : Span} {cost cost' : Cost}

theorem exists_of_size_eq (hsize : s'.stops.size = s.stops.size) {b : StopBound}
    (hb : s.stops[stop]? = some b) : ∃ b', s'.stops[stop]? = some b' := by
  have := (Array.getElem?_eq_some_iff.mp hb).1
  exact ⟨_, Array.getElem?_eq_getElem (hsize ▸ this)⟩

namespace Lowers

theorem refl (s : BoundState) : s.Lowers s where
  size_eq := rfl
  noMore h h' := by
    obtain rfl := Option.some.inj (h.symm.trans h')
    exact .refl _
  round_eq := rfl
  reached_eq := rfl
  touched h := ⟨h, rfl⟩
  ridden h := ⟨h, fun h h' => by
    obtain rfl := Option.some.inj (h.symm.trans h')
    exact ⟨rfl, rfl⟩⟩

theorem trans (h : s.Lowers s') (h' : s'.Lowers s'') : s.Lowers s'' where
  size_eq := h'.size_eq.trans h.size_eq
  noMore hb hb'' := by
    obtain ⟨b', hb'⟩ := exists_of_size_eq h.size_eq hb
    exact (h'.noMore hb' hb'').trans (h.noMore hb hb')
  round_eq := h'.round_eq.trans h.round_eq
  reached_eq := h'.reached_eq.trans h.reached_eq
  touched hstop := by
    obtain ⟨hstop, heq'⟩ := h'.touched hstop
    obtain ⟨hstop, heq⟩ := h.touched hstop
    exact ⟨hstop, heq'.trans heq⟩
  ridden hstop := by
    obtain ⟨hstop, heq'⟩ := h'.ridden hstop
    obtain ⟨hstop, heq⟩ := h.ridden hstop
    refine ⟨hstop, fun hb hb'' => ?_⟩
    obtain ⟨b', hb'⟩ := exists_of_size_eq h.size_eq hb
    obtain ⟨hduration, hcost⟩ := heq hb hb'
    obtain ⟨hduration', hcost'⟩ := heq' hb' hb''
    exact ⟨hduration'.trans hduration, hcost'.trans hcost⟩

/-- What was found remains found while values get lower. -/
theorem found (h : s.Lowers s') (hfound : s.Found priced stop onBoard duration cost) :
    s'.Found priced stop onBoard duration cost := by
  obtain ⟨b, hb, hle⟩ := hfound
  obtain ⟨b', hb'⟩ := exists_of_size_eq h.size_eq hb
  exact ⟨b', hb', hle.noMore (h.noMore hb hb')⟩

end Lowers

theorem Found.weaken (h : s.Found priced stop onBoard duration cost)
    (hduration : duration ≤ duration')
    (hcost : priced → cost ≤ cost') : s.Found priced stop onBoard duration' cost' := by
  obtain ⟨b, hb, hle⟩ := h
  exact ⟨b, hb, hle.weaken hduration hcost⟩

/-- What an arrival comes to: nothing outside the network or where no value gets lower, and else
lower values and marks. -/
inductive Arrives (s : BoundState) (stop : StopId) (duration : Span) (cost : Cost)
    (onBoard : Bool) : BoundState → Prop
  | outside (h : s.stops[stop]? = none) : Arrives s stop duration cost onBoard s
  | kept {b : StopBound} (hb : s.stops[stop]? = some b)
    (h : ∀ priced, b.AtMost priced onBoard duration cost) : Arrives s stop duration cost onBoard s
  | lowered {b : StopBound} {ridden : IndexSet} (hb : s.stops[stop]? = some b)
    (hridden : ridden = s.ridden.insert stop ∨ ridden = s.ridden ∧
      (b.after duration cost onBoard s.round).rideDuration = b.rideDuration ∧
      (b.after duration cost onBoard s.round).rideCost = b.rideCost)
    (hwalks : onBoard = false → ridden = s.ridden) :
    Arrives s stop duration cost onBoard
      { s with
        stops := s.stops.setIfInBounds stop (b.after duration cost onBoard s.round)
        touched := s.touched.insert stop
        ridden }

/-- An arrival comes to nothing, or it lowers a value and marks its stop. -/
theorem arrives (s : BoundState) (stop : StopId) (duration : Span) (cost : Cost) (onBoard : Bool) :
    s.Arrives stop duration cost onBoard (s.arrive stop duration cost onBoard) := by
  unfold BoundState.arrive
  cases hb : s.stops[stop]? with
  | none => exact .outside hb
  | some b =>
    dsimp only
    split
    case isTrue hbetter =>
      refine .lowered hb ?_ ?_
      · split
        case isTrue => exact .inl rfl
        case isFalse hnot =>
          refine .inr ⟨rfl, ?_⟩
          cases onBoard with
          | false => exact ⟨rfl, rfl⟩
          | true =>
            simp only [Bool.true_and, Bool.or_eq_true, decide_eq_true_eq, not_or, not_lt] at hnot
            exact ⟨min_eq_left hnot.1, min_eq_left hnot.2⟩
      · rintro rfl
        simp
    case isFalse hbetter =>
      refine .kept hb fun _ => ?_
      simp only [Bool.or_eq_true, decide_eq_true_eq, Bool.and_eq_true, not_or, not_and, not_lt]
        at hbetter
      obtain ⟨⟨hduration, hcost⟩, honBoard⟩ := hbetter
      exact ⟨hduration, fun _ => hcost, fun h => (honBoard h).1, fun h _ => (honBoard h).2⟩

theorem getElem?_setIfInBounds_of_some {b b' : StopBound} (hb : s.stops[stop]? = some b) (i : Nat) :
    (s.stops.setIfInBounds stop b')[i]? = if i = stop then some b' else s.stops[i]? := by
  have hlt := (Array.getElem?_eq_some_iff.mp hb).1
  by_cases heq : i = stop
  · subst heq
    simp [hlt]
  · simp [heq, Ne.symm heq]

theorem Arrives.sound (h : s.Arrives stop duration cost onBoard s') (hs : s.Sound stopCount) :
    s'.Sound stopCount := by
  cases h with
  | outside | kept => exact hs
  | lowered hb hridden =>
    constructor
    case stops_size => simpa using hs.stops_size
    case touched_size => simpa using hs.touched_size
    case reached_size => exact hs.reached_size
    case ridden_size =>
      rcases hridden with rfl | ⟨rfl, -⟩
      · simpa using hs.ridden_size
      · exact hs.ridden_size
    case rides_le =>
      intro i b' hb' hreached
      rw [getElem?_setIfInBounds_of_some hb] at hb'
      split at hb'
      · obtain rfl := Option.some.inj hb'
        exact min_le_right _ _
      · exact hs.rides_le hb' hreached

/-- An arrival makes no value higher. -/
theorem Arrives.lowers (h : s.Arrives stop duration cost onBoard s') (hs : s.Sound stopCount) :
    s.Lowers s' := by
  cases h with
  | outside | kept => exact .refl s
  | @lowered b ridden hb hridden hwalks =>
    have hlt := (Array.getElem?_eq_some_iff.mp hb).1
    rw [hs.stops_size] at hlt
    have hget : ∀ i, (s.stops.setIfInBounds stop (b.after duration cost onBoard s.round))[i]? = _ :=
      getElem?_setIfInBounds_of_some hb
    constructor
    case size_eq => simp
    case round_eq => rfl
    case reached_eq => rfl
    case noMore =>
      intro i b₀ b' hb₀ hb'
      rw [hget] at hb'
      split at hb'
      case isTrue heq =>
        rw [heq, hb] at hb₀
        obtain rfl := Option.some.inj hb₀
        obtain rfl := Option.some.inj hb'
        exact StopBound.after_noMore
      case isFalse =>
        obtain rfl := Option.some.inj (hb₀.symm.trans hb')
        exact .refl _
    case touched =>
      intro i hi
      obtain ⟨hne, hi⟩ := IndexSet.of_contains_insert_eq_false (by rwa [hs.touched_size]) hi
      exact ⟨hi, by rw [hget, if_neg hne]⟩
    case ridden =>
      intro i hi
      have hother : i ≠ stop → ∀ {b₀ b' : StopBound}, s.stops[i]? = some b₀ →
          (s.stops.setIfInBounds stop (b.after duration cost onBoard s.round))[i]? = some b' →
          b'.rideDuration = b₀.rideDuration ∧ b'.rideCost = b₀.rideCost := by
        intro hne b₀ b' hb₀ hb'
        rw [hget, if_neg hne] at hb'
        obtain rfl := Option.some.inj (hb₀.symm.trans hb')
        exact ⟨rfl, rfl⟩
      rcases hridden with rfl | ⟨rfl, hrides⟩
      · obtain ⟨hne, hi⟩ := IndexSet.of_contains_insert_eq_false (by rwa [hs.ridden_size]) hi
        exact ⟨hi, hother hne⟩
      · refine ⟨hi, fun hb₀ hb' => ?_⟩
        by_cases heq : i = stop
        · rw [hget, if_pos heq] at hb'
          rw [heq, hb] at hb₀
          obtain rfl := Option.some.inj hb₀
          obtain rfl := Option.some.inj hb'
          exact hrides
        · exact hother heq hb₀ hb'

/-- Arriving at a stop of the network leaves values there that are no more than its own. -/
theorem Arrives.found (h : s.Arrives stop duration cost onBoard s') (hs : s.Sound stopCount)
    (hstop : stop < stopCount) : s'.Found priced stop onBoard duration cost := by
  cases h with
  | outside hnone =>
    have := Array.getElem?_eq_none_iff.mp hnone
    rw [hs.stops_size] at this
    omega
  | kept hb h => exact ⟨_, hb, h priced⟩
  | lowered hb =>
    exact ⟨_, by rw [getElem?_setIfInBounds_of_some hb, if_pos rfl], StopBound.after_atMost⟩

/-- What walks do: they change nothing about the rides. -/
structure Strolls (s s' : BoundState) : Prop where
  lowers : s.Lowers s'
  ridden_eq : s'.ridden = s.ridden
  rides_eq : ∀ {stop : Nat} {b b' : StopBound}, s.stops[stop]? = some b →
    s'.stops[stop]? = some b' → b'.rideDuration = b.rideDuration ∧ b'.rideCost = b.rideCost

theorem Strolls.refl (s : BoundState) : s.Strolls s where
  lowers := .refl s
  ridden_eq := rfl
  rides_eq h h' := by
    obtain rfl := Option.some.inj (h.symm.trans h')
    exact ⟨rfl, rfl⟩

theorem Strolls.trans (h : s.Strolls s') (h' : s'.Strolls s'') : s.Strolls s'' where
  lowers := h.lowers.trans h'.lowers
  ridden_eq := h'.ridden_eq.trans h.ridden_eq
  rides_eq hb hb'' := by
    obtain ⟨b', hb'⟩ := exists_of_size_eq h.lowers.size_eq hb
    obtain ⟨hduration, hcost⟩ := h.rides_eq hb hb'
    obtain ⟨hduration', hcost'⟩ := h'.rides_eq hb' hb''
    exact ⟨hduration'.trans hduration, hcost'.trans hcost⟩

theorem Arrives.strolls (h : s.Arrives stop duration cost false s') (hs : s.Sound stopCount) :
    s.Strolls s' := by
  refine ⟨h.lowers hs, ?_, ?_⟩
  · cases h with
    | outside | kept => rfl
    | lowered _ _ hwalks => exact hwalks rfl
  · intro i b b' hb hb'
    cases h with
    | outside | kept =>
      obtain rfl := Option.some.inj (hb.symm.trans hb')
      exact ⟨rfl, rfl⟩
    | lowered hfirst =>
      rw [getElem?_setIfInBounds_of_some hfirst] at hb'
      split at hb'
      case isTrue heq =>
        rw [heq, hfirst] at hb
        obtain rfl := Option.some.inj hb
        obtain rfl := Option.some.inj hb'
        exact ⟨rfl, rfl⟩
      case isFalse =>
        obtain rfl := Option.some.inj (hb.symm.trans hb')
        exact ⟨rfl, rfl⟩

end BoundState

namespace BoundScene

variable (c : BoundScene)

/-! ### Rides -/

/-- What a boarding takes off the values on board, zero outside the run. -/
def boardingOffset (run : FastestRun) (position : Nat) : Span :=
  match c.direction with
  | .forward => -run.departures.getD position 0
  | .reverse => run.arrivals.getD position 0

/-- What an alighting adds to the values on board, zero outside the run. -/
def alightingOffset (run : FastestRun) (position : Nat) : Span :=
  match c.direction with
  | .forward => run.arrivals.getD position 0
  | .reverse => -run.departures.getD position 0

/-- The rules that the search follows are those of a network. -/
def Of (net : Network) : Prop := ∀ index, c.rules = some index → net.rules = some index

/-- The price of boarding a pattern in the direction of the request, where the search leaves it. -/
def boardingPrice (p : Pattern) (position : Nat) : Cost :=
  c.tariff.leastBoarding c.rules c.direction.opposite p.id position

def rideSpan (trip : Trip) (boardPosition position : Nat) : Span :=
  c.direction.gap (c.direction.boardingAt trip boardPosition)
    (c.direction.alightingAt trip position)

/-- A pattern may be boarded where a stop has been reached in the round before, with these values
there. -/
def Boards (s : BoundState) (p : Pattern) (position : Nat) (b : StopBound) : Prop :=
  ∃ stop, p.stops[position]? = some stop ∧ c.direction.canBoard p position = .ok true ∧
    s.reached.contains stop = true ∧ s.stops[stop]? = some b ∧ b.duration < unreached

/-- At a position of a pattern, values are no more than by any ride there. -/
def RidesTo (s s' : BoundState) (p : Pattern) (t : Timetable) (position : Nat) : Prop :=
  ∀ ⦃boardPosition stop : Nat⦄ ⦃trip : Trip⦄ ⦃b : StopBound⦄, trip ∈ t.trips →
    c.Boards s p boardPosition b → c.direction.precedes boardPosition position = true →
    c.direction.canAlight p position = .ok true → p.stops[position]? = some stop →
    s'.Found c.tariff.RidesCost stop true (b.duration + c.rideSpan trip boardPosition position)
      (b.cost + (c.tariff.transitFactor trip.reluctance * c.rideSpan trip boardPosition position +
        c.boardingPrice p position))

/-- Values are no more than by any ride. -/
def Rides (net : Network) (s s' : BoundState) : Prop :=
  ∀ (i : PatternId) (p : Pattern) (t : Timetable), net.patterns[i]? = some p →
    net.timetables[i]? = some t → ∀ position, c.RidesTo s s' p t position

/-- What is on board after some positions: no more than what was found where it was boarded. -/
structure Carries (s : BoundState) (p : Pattern) (t : Timetable) (done : List Nat)
    (ride : BoundRide) : Prop where
  arrivals_size : ride.fastest.arrivals.size = p.length
  departures_size : ride.fastest.departures.size = p.length
  beats : ∀ trip ∈ t.trips, ride.fastest.Beats trip p.length
  factor_eq : ∀ trip ∈ t.trips, c.tariff.transitFactor trip.reluctance = ride.factor
  boardCost_eq : ∀ position, c.boardCost ride.rules position = c.boardingPrice p position
  boarded : ∀ {position : Nat} {b : StopBound}, position ∈ done → c.Boards s p position b →
    ∃ values, ride.onBoard = some values ∧
      values.1 ≤ b.duration + c.boardingOffset ride.fastest position ∧
      (c.tariff.RidesCost →
        values.2 ≤ b.cost + ride.factor * c.boardingOffset ride.fastest position)

variable {c} {course : Course} {s s₁ s₂ : BoundState} {p : Pattern} {t : Timetable}
  {run : FastestRun} {i length stopCount stop position boardPosition : Nat}
  {trip : Trip} {done : List Nat} {ride : BoundRide} {b : StopBound}

theorem RidesTo.mono (h : c.RidesTo s s₁ p t position) (hlow : s₁.Lowers s₂) :
    c.RidesTo s s₂ p t position := by
  intro boardPosition stop trip b htrip hboards hprecedes halights hstop
  exact hlow.found (h htrip hboards hprecedes halights hstop)

/-- The offsets of a boarding and an alighting add up to no more than the ride on a trip between
them. -/
theorem offsets_le (h : run.Beats trip length)
    (hprecedes : c.direction.precedes boardPosition position = true)
    (hboard : boardPosition < length) (hposition : position < length) :
    c.boardingOffset run boardPosition + c.alightingOffset run position ≤
      c.rideSpan trip boardPosition position := by
  unfold rideSpan boardingOffset alightingOffset
  cases hd : c.direction with
  | forward =>
    simp only [hd, Direction.precedes, decide_eq_true_eq] at hprecedes
    have := h _ _ hprecedes hposition
    simp only [Direction.gap, Direction.alightingAt, Direction.boardingAt]
    linarith
  | reverse =>
    simp only [hd, Direction.precedes, decide_eq_true_eq] at hprecedes
    have := h _ _ hprecedes hboard
    simp only [Direction.gap, Direction.alightingAt, Direction.boardingAt]
    linarith

theorem yields_boardOffset (hposition : position < run.arrivals.size)
    (hsize : run.departures.size = run.arrivals.size) :
    Yields (c.boardOffset run position) (· = c.boardingOffset run position) := by
  unfold boardOffset boardingOffset
  cases c.direction with
  | forward =>
    have hlt : position < run.departures.size := by rw [hsize]; exact hposition
    rw [fetch_of_getElem? (Array.getElem?_eq_getElem hlt)]
    refine (yields_word _).mono ?_
    rintro _ - ⟨rfl, -⟩
    simp [hlt]
  | reverse =>
    rw [fetch_of_getElem? (Array.getElem?_eq_getElem hposition)]
    simp [hposition]

theorem yields_alightOffset (hposition : position < run.arrivals.size)
    (hsize : run.departures.size = run.arrivals.size) :
    Yields (c.alightOffset run position) (· = c.alightingOffset run position) := by
  unfold alightOffset alightingOffset
  cases c.direction with
  | forward =>
    rw [fetch_of_getElem? (Array.getElem?_eq_getElem hposition)]
    simp [hposition]
  | reverse =>
    have hlt : position < run.departures.size := by rw [hsize]; exact hposition
    rw [fetch_of_getElem? (Array.getElem?_eq_getElem hlt)]
    refine (yields_word _).mono ?_
    rintro _ - ⟨rfl, -⟩
    simp [hlt]

/-- Before a pattern is ridden nothing is on board. -/
theorem yields_enter (hnet : course.network.Sound) (hof : c.Of course.network)
    (hp : course.network.patterns[i]? = some p) (ht : course.network.timetables[i]? = some t)
    (hlength : 0 < p.length) : Yields (c.enter p t) (c.Carries s p t []) := by
  have hrest : ∀ rules, (∀ position, c.boardCost rules position = c.boardingPrice p position) →
      Yields (do
        let fastest ← t.fastest
        return (⟨fastest, c.tariff.transitFactor fastest.reluctance, rules, none⟩ : BoundRide))
        (c.Carries s p t []) := by
    intro rules hboardCost
    refine ((hnet.timetable_sound hp ht).yields_fastest hlength).bind ?_
    rintro run - ⟨harrivals, hdepartures, hbeats, hreluctance⟩
    refine ⟨harrivals, hdepartures, hbeats, fun trip htrip => ?_, hboardCost, by simp⟩
    obtain ⟨rank, hrank, -⟩ := Array.mem_iff_getElem.mp htrip
    have hfirst := Array.getElem?_eq_getElem (Nat.zero_lt_of_lt hrank)
    rw [hfirst] at hreluctance
    show _ = c.tariff.transitFactor run.reluctance
    rw [hreluctance]
    exact congrArg _ (hnet.same_reluctance ht trip htrip _ (Array.mem_of_getElem? hfirst))
  unfold enter
  unfold boardingPrice at hrest
  cases hindex : c.rules with
  | none =>
    rw [hindex] at hrest
    exact hrest none fun _ => rfl
  | some index =>
    rw [hindex] at hrest
    dsimp only
    rw [hnet.forPattern_eq hp (hof index hindex)]
    exact hrest (some _) fun _ => rfl

/-- Boarding where a stop has been reached. -/
theorem yields_board (hcarries : c.Carries s p t done ride) (hlow : s.Lowers s₁)
    (hstop : p.stops[position]? = some stop) (hb : s₁.stops[stop]? = some b) :
    Yields (c.board s₁ stop stop position ride) (c.Carries s p t (done ++ [position])) := by
  have hposition : position < ride.fastest.arrivals.size := by
    rw [hcarries.arrivals_size]
    exact (Array.getElem?_eq_some_iff.mp hstop).1
  have hsize := hcarries.departures_size.trans hcarries.arrivals_size.symm
  refine (yields_boardOffset hposition hsize).bind ?_
  rintro _ - rfl
  rw [fetch_of_getElem? hb]
  refine (yields_word _).bind ?_
  rintro _ - ⟨rfl, -⟩
  refine (yields_word _).bind ?_
  rintro _ - ⟨rfl, -⟩
  refine (yields_word _).bind ?_
  rintro _ - ⟨rfl, -⟩
  refine ⟨hcarries.arrivals_size, hcarries.departures_size, hcarries.beats, hcarries.factor_eq,
    hcarries.boardCost_eq, fun {q b₀} hq hboards => ?_⟩
  dsimp only
  rcases List.mem_append.mp hq with hq | hq
  · obtain ⟨values, hvalues, hduration, hcost⟩ := hcarries.boarded hq hboards
    rw [hvalues]
    exact ⟨_, rfl, (min_le_left _ _).trans hduration, fun h => (min_le_left _ _).trans (hcost h)⟩
  · obtain rfl := List.mem_singleton.mp hq
    obtain ⟨stop', hstop', -, -, hb₀, -⟩ := hboards
    obtain rfl := Option.some.inj (hstop.symm.trans hstop')
    have hle := hlow.noMore hb₀ hb
    have hduration := hle.duration_le
    have hcost := hle.cost_le
    cases ride.onBoard with
    | none => exact ⟨_, rfl, by dsimp only; linarith, fun _ => by dsimp only; linarith⟩
    | some values =>
      refine ⟨_, rfl, (min_le_right _ _).trans ?_, fun _ => (min_le_right _ _).trans ?_⟩
      · linarith
      · linarith

/-- Where nothing is boarded what is on board stays. -/
theorem Carries.skip (h : c.Carries s p t done ride) (hnone : ∀ b, ¬c.Boards s p position b) :
    c.Carries s p t (done ++ [position]) ride :=
  { h with
    boarded := by
      intro q b hq hboards
      rcases List.mem_append.mp hq with hq | hq
      · exact h.boarded hq hboards
      · obtain rfl := List.mem_singleton.mp hq
        exact absurd hboards (hnone b) }

/-- Leaving the fastest run. -/
theorem yields_alight (hcarries : c.Carries s p t done ride) (hs₁ : s₁.Sound stopCount)
    (hstop : p.stops[position]? = some stop) (hlt : stop < stopCount)
    (hbefore : ∀ {q b}, c.Boards s p q b → c.direction.precedes q position = true → q ∈ done) :
    Yields (c.alight ride stop position s₁) fun s₂ =>
      s₂.Sound stopCount ∧ s₁.Lowers s₂ ∧ c.RidesTo s s₂ p t position := by
  unfold alight
  cases hride : ride.onBoard with
  | none =>
    refine ⟨hs₁, .refl s₁, ?_⟩
    intro boardPosition stop' trip b htrip hboards hprecedes
    obtain ⟨values, hvalues, -⟩ := hcarries.boarded (hbefore hboards hprecedes) hboards
    rw [hride] at hvalues
    cases hvalues
  | some values =>
    have hposition : position < p.length := (Array.getElem?_eq_some_iff.mp hstop).1
    have hsize := hcarries.departures_size.trans hcarries.arrivals_size.symm
    refine (yields_alightOffset (by rwa [hcarries.arrivals_size]) hsize).bind ?_
    rintro _ - rfl
    refine (yields_word _).bind ?_
    rintro _ - ⟨rfl, -⟩
    refine (yields_word _).bind ?_
    rintro _ - ⟨rfl, -⟩
    refine (yields_word _).bind ?_
    rintro _ - ⟨rfl, -⟩
    refine (yields_word _).bind ?_
    rintro _ - ⟨rfl, -⟩
    have harrives := s₁.arrives stop (values.1 + c.alightingOffset ride.fastest position)
      (values.2 + ride.factor * c.alightingOffset ride.fastest position +
        c.boardCost ride.rules position) true
    refine ⟨harrives.sound hs₁, harrives.lowers hs₁, ?_⟩
    intro boardPosition stop' trip b htrip hboards hprecedes halights hstop'
    obtain rfl := Option.some.inj (hstop.symm.trans hstop')
    obtain ⟨values', hvalues, hduration, hcost⟩ :=
      hcarries.boarded (hbefore hboards hprecedes) hboards
    obtain rfl := Option.some.inj (hride.symm.trans hvalues)
    obtain ⟨_, hboardStop, -⟩ := hboards
    have hspan := offsets_le (hcarries.beats trip htrip) hprecedes
      (Array.getElem?_eq_some_iff.mp hboardStop).1 hposition
    refine (harrives.found hs₁ hlt).weaken (by linarith) fun hpriced => ?_
    have hfactor := hpriced trip.reluctance
    have hcost := hcost hpriced
    rw [hcarries.factor_eq trip htrip] at hfactor ⊢
    have hprice := Int.mul_le_mul_of_nonneg_left hspan hfactor
    rw [mul_add] at hprice
    rw [hcarries.boardCost_eq]
    linarith

/-- The visit of a position. The ride carries what was boarded at the positions that are done. -/
theorem yields_visit (hnet : course.network.Sound) (hd : course.direction = c.direction)
    (hlow : s.Lowers s₁) (hp : course.network.patterns[i]? = some p) {first : Nat}
    (hstart : first < p.length)
    (hvisited : ∀ {q b}, c.Boards s p q b → q ∈ c.direction.positionsFrom first p.length)
    {rest : List Nat} {state : BoundState}
    (hsplit : c.direction.positionsFrom first p.length = done ++ position :: rest)
    (hstate : state.Sound course.network.stopCount) (hdone : s₁.Lowers state)
    (hrides : ∀ q ∈ done, c.RidesTo s state p t q) (hcarries : c.Carries s p t done ride) :
    Yields (visit (boundScheme c) course p (state, ride) position) fun current =>
      (current.1.Sound course.network.stopCount ∧ s₁.Lowers current.1 ∧
        ∀ q ∈ done ++ [position], c.RidesTo s current.1 p t q) ∧
      c.Carries s p t (done ++ [position]) current.2 := by
  have hmem : position ∈ c.direction.positionsFrom first p.length := by simp [hsplit]
  have hposition := ((Direction.mem_positionsFrom hstart).mp hmem).2
  have hkept : ∀ {state' : BoundState}, state.Lowers state' →
      c.RidesTo s state' p t position →
      ∀ q ∈ done ++ [position], c.RidesTo s state' p t q := by
    intro state' hlow' hlast q hq
    rcases List.mem_append.mp hq with hq | hq
    · exact (hrides q hq).mono hlow'
    · obtain rfl := List.mem_singleton.mp hq
      exact hlast
  refine JourneyPlanner.yields_visit hnet hp hposition
    (M := fun state' => state'.Sound course.network.stopCount ∧ s₁.Lowers state' ∧
      ∀ q ∈ done ++ [position], c.RidesTo s state' p t q) ?_ ?_ ?_ ?_
  · intro stop hstop _
    refine (yields_alight hcarries hstate hstop (hnet.stop_lt hp hstop) ?_).mono ?_
    · intro q b hboards hprecedes
      exact (Direction.mem_before_iff hsplit (hvisited hboards)).mpr hprecedes
    · rintro state' - ⟨hstate', hlow', hlast⟩
      exact ⟨hstate', hdone.trans hlow', hkept hlow' hlast⟩
  · intro hnot
    refine ⟨hstate, hdone, hkept (.refl state) ?_⟩
    intro boardPosition stop trip b _ _ _ halights
    rw [hd, halights] at hnot
    cases hnot
  · rintro stop state' hstop ⟨hstate', hlow', hrides'⟩ hboards hreached
    have hlt := hnet.stop_lt hp hstop
    rw [← hstate'.stops_size] at hlt
    have hb := Array.getElem?_eq_getElem hlt
    have hlow := hlow.trans hlow'
    simp only [boundScheme, hb, yields_pure]
    split
    case isTrue hnone =>
      -- what has not been reached now had not been reached before
      refine ⟨⟨hstate', hlow', hrides'⟩, hcarries.skip ?_⟩
      rintro b ⟨stop', hstop', -, -, hb₀, hlt₀⟩
      obtain rfl := Option.some.inj (hstop.symm.trans hstop')
      have := (hlow.noMore hb₀ hb).duration_le
      linarith
    case isFalse =>
      refine (yields_board hcarries hlow hstop hb).bind fun ride' _ hride' => ?_
      exact ⟨⟨hstate', hlow', hrides'⟩, hride'⟩
  · rintro stop state' hstop ⟨hstate', hlow', hrides'⟩ hskip
    refine ⟨⟨hstate', hlow', hrides'⟩, hcarries.skip ?_⟩
    rintro b ⟨stop', hstop', hboards, hreached, -⟩
    obtain rfl := Option.some.inj (hstop.symm.trans hstop')
    rcases hskip with hskip | hskip
    · rw [hd, hboards] at hskip
      cases hskip
    · change state'.reached.contains stop = false at hskip
      rw [(hlow.trans hlow').reached_eq, hreached] at hskip
      cases hskip

/-- The ride along a pattern. It is not boarded before the first position of the plan. -/
theorem yields_ridePattern (hnet : course.network.Sound) (hof : c.Of course.network)
    (hd : course.direction = c.direction) (hs₁ : s₁.Sound course.network.stopCount)
    (hlow : s.Lowers s₁) {start : PatternId × Nat}
    (hp : course.network.patterns[start.1]? = some p)
    (ht : course.network.timetables[start.1]? = some t) (hstart : start.2 < p.length)
    (hfirst : ∀ position b, c.Boards s p position b → c.direction.AtOrAfter start.2 position) :
    Yields (ridePattern (boundScheme c) course s₁ start) fun s₂ =>
      s₂.Sound course.network.stopCount ∧ s₁.Lowers s₂ ∧
        ∀ position, c.RidesTo s s₂ p t position := by
  have hvisited : ∀ {q b}, c.Boards s p q b → q ∈ c.direction.positionsFrom start.2 p.length := by
    intro q b hboards
    obtain ⟨_, hstop, -⟩ := id hboards
    exact (Direction.mem_positionsFrom hstart).mpr
      ⟨hfirst q b hboards, (Array.getElem?_eq_some_iff.mp hstop).1⟩
  refine JourneyPlanner.yields_ridePattern hp ht
    (A := fun done state ride => (state.Sound course.network.stopCount ∧ s₁.Lowers state ∧
      ∀ q ∈ done, c.RidesTo s state p t q) ∧ c.Carries s p t done ride) ?_ ?_ ?_ ?_
  · intro hnone
    refine ⟨hs₁, .refl s₁, fun position => ?_⟩
    intro boardPosition stop trip b htrip
    have := Array.size_pos_of_mem htrip
    rw [Timetable.size] at hnone
    omega
  · intro _
    refine (yields_enter (s := s) hnet hof hp ht (Nat.zero_lt_of_lt hstart)).mono ?_
    intro ride _ hride
    exact ⟨⟨hs₁, .refl s₁, by simp⟩, hride⟩
  · rintro done position rest state ride hsplit ⟨⟨hstate, hdone, hrides⟩, hcarries⟩
    rw [hd] at hsplit
    exact yields_visit hnet hd hlow hp hstart hvisited hsplit hstate hdone hrides hcarries
  · rintro state ride ⟨⟨hstate, hdone, hrides⟩, -⟩
    rw [hd] at hrides
    refine ⟨hstate, hdone, fun position => ?_⟩
    intro boardPosition stop trip b htrip hboards hprecedes halights hstop
    refine hrides position ?_ htrip hboards hprecedes halights hstop
    refine (Direction.mem_positionsFrom hstart).mpr ⟨?_, (Array.getElem?_eq_some_iff.mp hstop).1⟩
    exact (hfirst _ _ hboards).trans (Direction.atOrAfter_of_precedes hprecedes)

/-- The rides of a round find values that are no more than those by any ride from a stop reached in
the round before. -/
theorem yields_transitRound (hnet : course.network.Sound) (hof : c.Of course.network)
    (hd : course.direction = c.direction) (hs : s.Sound course.network.stopCount) :
    Yields (transitRound (boundScheme c) course s (.empty course.network.patternCount))
      fun result => (result.1.Sound course.network.stopCount ∧ s.Lowers result.1 ∧
        c.Rides course.network s result.1) ∧ result.2 = .empty course.network.patternCount := by
  have hreached : ∀ stop, s.reached.contains stop = true → stop < course.network.stopCount := by
    intro stop hstop
    have := IndexSet.lt_of_contains hstop
    rwa [hs.reached_size] at this
  have hmem {i position : Nat} :
      (i, position) ∈ ScanMarks.visitsAt course.network s.reached.toList ↔ _ :=
    ScanMarks.mem_visitsAt_toList hnet hreached
  have hvisits : ∀ {i p position b}, course.network.patterns[i]? = some p →
      c.Boards s p position b →
      (i, position) ∈ ScanMarks.visitsAt course.network s.reached.toList := by
    rintro i p position b hp ⟨stop, hstop, -, hcontains, -⟩
    exact hmem.mpr ⟨p, stop, hp, hstop, hcontains⟩
  refine JourneyPlanner.yields_transitRound hnet rfl hreached
    (A := fun done state => state.Sound course.network.stopCount ∧ s.Lowers state ∧
      ∀ start ∈ done, ∀ {p t}, course.network.patterns[start.1]? = some p →
        course.network.timetables[start.1]? = some t → ∀ position, c.RidesTo s state p t position)
    (Q := fun state => state.Sound course.network.stopCount ∧ s.Lowers state ∧
      c.Rides course.network s state) ⟨hs, .refl s, by simp⟩ ?_ ?_
  · rintro plan done start rest state hplan hsplit ⟨hstate, hdone, hrides⟩
    obtain ⟨hvisit, hfirst⟩ := hplan.mem_iff.mp (show (start.1, start.2) ∈ plan by simp [hsplit])
    obtain ⟨p, stop, hp, hstop, -⟩ := hmem.mp hvisit
    obtain ⟨t, ht⟩ := hnet.exists_timetable hp
    have hstart := (Array.getElem?_eq_some_iff.mp hstop).1
    refine (yields_ridePattern hnet hof hd hstate hdone hp ht hstart ?_).mono ?_
    · intro position b hboards
      rw [← hd]
      exact hfirst position (hvisits hp hboards)
    · rintro state' - ⟨hstate', hlow', hlast⟩
      refine ⟨hstate', hdone.trans hlow', ?_⟩
      intro start' hstart' p' t' hp' ht' position
      rcases List.mem_append.mp hstart' with hstart' | hstart'
      · exact (hrides start' hstart' hp' ht' position).mono hlow'
      · obtain rfl := List.mem_singleton.mp hstart'
        obtain rfl := Option.some.inj (hp.symm.trans hp')
        obtain rfl := Option.some.inj (ht.symm.trans ht')
        exact hlast position
  · rintro plan state hplan ⟨hstate, hdone, hrides⟩
    refine ⟨hstate, hdone, fun i p t hp ht position => ?_⟩
    intro boardPosition stop trip b htrip hboards
    obtain ⟨first, hfirst⟩ := hplan.exists_mem (hvisits hp hboards)
    exact hrides (i, first) hfirst hp ht position htrip hboards

/-! ### Legs on board -/

/-- The legs that start on board arrive in the first round. -/
theorem yields_boardRound {time : Time} {round : Nat} (hs : s.Sound stopCount) :
    Yields (boardRound (boundScheme c) course time round s) fun s' =>
      s'.Sound stopCount ∧ s.Lowers s' ∧ (round = 1 → ∀ leg ∈ course.onBoardAccess,
        leg.stop < stopCount → s'.Found c.tariff.RidesCost leg.stop true leg.duration
        leg.cost) := by
  unfold boardRound
  refine Yields.ite (fun _ => ?_) fun hlater => ⟨hs, .refl s, fun hfirst => absurd hfirst hlater⟩
  refine (Yields.foldlM_done (I := fun done state => state.Sound stopCount ∧ s.Lowers state ∧
    ∀ leg ∈ done, leg.stop < stopCount →
      state.Found c.tariff.RidesCost leg.stop true leg.duration leg.cost)
    ⟨hs, .refl s, by simp⟩ ?_).mono fun state _ ⟨hstate, hlow, hdone⟩ =>
      ⟨hstate, hlow, fun _ => hdone⟩
  rintro done leg state - ⟨hstate, hlow, hdone⟩
  have harrives := state.arrives leg.stop leg.duration leg.cost true
  have hlast := harrives.lowers hstate
  refine ⟨harrives.sound hstate, hlow.trans hlast, fun leg' hleg hlt => ?_⟩
  rcases List.mem_append.mp hleg with hleg | hleg
  · exact hlast.found (hdone leg' hleg hlt)
  · obtain rfl := List.mem_singleton.mp hleg
    exact harrives.found hstate hlt

/-! ### Walks -/

/-- Where a walk leads, values are no more than by that walk from where a ride has ended. -/
def WalksTo (c : BoundScene) (s s' : BoundState) (w : Walk) : Prop :=
  ∀ ⦃b : StopBound⦄, s.stops[c.direction.walkSource w]? = some b → b.rideDuration < unreached →
    s'.Found c.tariff.RidesCost (c.direction.walkTarget w) false (b.rideDuration + w.duration)
      (b.rideCost + c.tariff.walk * w.duration)

variable {walks : List Walk} {w : Walk}

theorem WalksTo.mono {s₀ : BoundState} (h : c.WalksTo s₀ s₁ w) (hlow : s₁.Lowers s₂) :
    c.WalksTo s₀ s₂ w := by
  intro b hb hshort
  exact hlow.found (h hb hshort)

/-- The walks from a stop. -/
theorem yields_walk (hs₁ : s₁.Sound stopCount) (hstop : stop < stopCount)
    (hkept : s.Strolls s₁) (hwalks : ∀ w ∈ walks, c.direction.walkSource w = stop ∧
      c.direction.walkTarget w < stopCount) :
    Yields (c.walk stop walks s₁) fun s₂ => s₂.Sound stopCount ∧ s₁.Strolls s₂ ∧
      ∀ w ∈ walks, c.WalksTo s s₂ w := by
  have hlt : stop < s₁.stops.size := by rw [hs₁.stops_size]; exact hstop
  have hb := Array.getElem?_eq_getElem hlt
  unfold walk
  rw [fetch_of_getElem? hb]
  refine Yields.ite (fun hnone => ⟨hs₁, .refl s₁, ?_⟩) fun _ => ?_
  · intro w hw b hb' hshort
    rw [(hwalks w hw).1] at hb'
    have := (hkept.rides_eq hb' hb).1
    rw [hnone] at this
    exact absurd this.symm (ne_of_lt hshort)
  refine Yields.foldlM_done (I := fun done state => state.Sound stopCount ∧ s₁.Strolls state ∧
    ∀ w ∈ done, c.WalksTo s state w) ⟨hs₁, .refl s₁, by simp⟩ ?_
  rintro done w state ⟨rest, hrest⟩ ⟨hstate, hstrolls, hdone⟩
  obtain ⟨hsource, htarget⟩ := hwalks w (by simp [hrest])
  refine (yields_word _).bind ?_
  rintro _ - ⟨rfl, -⟩
  refine Tariff.yields_walkCost.bind ?_
  rintro _ - rfl
  refine (yields_word _).bind ?_
  rintro _ - ⟨rfl, -⟩
  have harrives := state.arrives (c.direction.walkTarget w)
    (s₁.stops[stop].rideDuration + w.duration)
    (s₁.stops[stop].rideCost + c.tariff.walk * w.duration) false
  have hstroll := harrives.strolls hstate
  refine ⟨harrives.sound hstate, hstrolls.trans hstroll, fun w' hw' => ?_⟩
  rcases List.mem_append.mp hw' with hw' | hw'
  · exact (hdone w' hw').mono hstroll.lowers
  · obtain rfl := List.mem_singleton.mp hw'
    intro b hb' _
    rw [hsource] at hb'
    obtain ⟨hduration, hcost⟩ := hkept.rides_eq hb' hb
    rw [← hduration, ← hcost]
    exact harrives.found hstate htarget

/-- The walks of a round find values that are no more than those by any walk from where a ride of
the round has ended. -/
theorem yields_walkRound (hnet : course.network.Sound) (hd : course.direction = c.direction)
    (hs : s.Sound course.network.stopCount) :
    Yields (walkRound (boundScheme c) course s) fun s' =>
      s'.Sound course.network.stopCount ∧ s.Strolls s' ∧
        ∀ w, course.network.HasWalk w → s.ridden.contains (c.direction.walkSource w) = true →
          c.WalksTo s s' w := by
  have hridden : ∀ stop, s.ridden.contains stop = true → stop < course.network.stopCount := by
    intro stop hstop
    have := IndexSet.lt_of_contains hstop
    rwa [hs.ridden_size] at this
  refine (JourneyPlanner.yields_walkRound hnet hridden
    (A := fun done state => state.Sound course.network.stopCount ∧ s.Strolls state ∧
      ∀ w, course.network.HasWalk w → c.direction.walkSource w ∈ done → c.WalksTo s state w)
    ⟨hs, .refl s, by simp⟩ ?_).mono ?_
  · rintro done stop rest state walks hsplit hwalks ⟨hstate, hstrolls, hdone⟩
    rw [hd] at hwalks
    have hstop : stop < course.network.stopCount := by
      refine hridden stop (IndexSet.mem_toList.mp ?_)
      change stop ∈ s.ridden.toList
      change s.ridden.toList = _ at hsplit
      simp [hsplit]
    refine (yields_walk hstate hstop hstrolls ?_).mono ?_
    · intro w hw
      obtain ⟨hhas, hsource⟩ := (hwalks w).mp hw
      exact ⟨hsource, hnet.walkTarget_lt hhas c.direction⟩
    · rintro state' - ⟨hstate', hstrolls', hlast⟩
      refine ⟨hstate', hstrolls.trans hstrolls', fun w hhas hsource => ?_⟩
      rcases List.mem_append.mp hsource with hsource | hsource
      · exact (hdone w hhas hsource).mono hstrolls'.lowers
      · exact hlast w ((hwalks w).mpr ⟨hhas, List.mem_singleton.mp hsource⟩)
  · rintro s' - ⟨hs', hstrolls, hdone⟩
    exact ⟨hs', hstrolls, fun w hhas hcontains =>
      hdone w hhas (IndexSet.mem_toList.mpr hcontains)⟩

end BoundScene

end JourneyPlanner
