import JourneyPlanner.Search.Route
import JourneyPlanner.Proofs.Search.Bounds

/-!
# Bounds below what remains

The bounds at a stop are below everything that can remain of a journey there: rides on any trips,
whenever they run, walks before them and a leg to the end. An induction on the rounds of the search
for bounds shows it: what remains after one more ride is found one round later, unless nothing has
changed at the stop where the ride ends, and then it has been found before.

* `Network.Remains`: what can remain of a journey.
* `BoundScene.Closed`: all rides and walks have been taken into account, but those from marked
  stops.
* `Network.yields_bounds`: the bounds for a request.
-/

namespace JourneyPlanner

/-- What can remain of a journey after a stop, in the direction of its search: whether it starts on
board of a vehicle, its rides, and its seconds and cost without waits and slacks. A leg to the end
on board is a ride itself. What remains after each part of it takes less than the time that stands
for unreached stops. -/
inductive Network.Remains (net : Network) (d : Direction) (tariff : Tariff)
    (rules : Option RuleIndex) (egress : List Connector) :
    StopId → Bool → Nat → Span → Cost → Prop
  | finish {leg : Connector} (hleg : leg ∈ egress) (hstop : leg.stop < net.stopCount) :
    Remains net d tariff rules egress leg.stop leg.onBoard leg.onBoard.toNat leg.duration leg.cost
  | ride {i boardPosition position stop target rides : Nat} {p : Pattern} {t : Timetable}
    {trip : Trip} {rideFirst : Bool} {duration : Span} {cost : Cost}
    (hp : net.patterns[i]? = some p) (ht : net.timetables[i]? = some t) (htrip : trip ∈ t.trips)
    (hstop : p.stops[boardPosition]? = some stop)
    (hboards : d.canBoard p boardPosition = .ok true)
    (htarget : p.stops[position]? = some target) (halights : d.canAlight p position = .ok true)
    (hprecedes : d.precedes boardPosition position = true)
    (after : Remains net d tariff rules egress target rideFirst rides duration cost)
    (hshort : duration < unreached) :
    Remains net d tariff rules egress stop true (rides + 1)
      (duration + d.gap (d.boardingAt trip boardPosition) (d.alightingAt trip position))
      (cost + (tariff.transitFactor trip.reluctance *
        d.gap (d.boardingAt trip boardPosition) (d.alightingAt trip position) +
          tariff.leastBoarding rules d p.id boardPosition))
  | walk {rides : Nat} {w : Walk} {duration : Span} {cost : Cost} (hwalk : net.HasWalk w)
    (after : Remains net d tariff rules egress (d.walkTarget w) true rides duration cost)
    (hshort : duration < unreached) :
    Remains net d tariff rules egress (d.walkSource w) false rides (duration + w.duration)
      (cost + tariff.walk * w.duration)

/-- What starts on board has a ride. -/
theorem Network.Remains.rides_pos {net : Network} {d : Direction} {tariff : Tariff}
    {rules : Option RuleIndex} {egress : List Connector} {stop rides : Nat} {rideFirst : Bool}
    {duration : Span} {cost : Cost}
    (h : net.Remains d tariff rules egress stop rideFirst rides duration cost)
    (hfirst : rideFirst = true) : 0 < rides := by
  cases h with
  | walk => cases hfirst
  | ride => exact Nat.succ_pos _
  | finish =>
    rw [hfirst]
    exact Nat.one_pos

namespace Direction

variable {d : Direction} {w : Walk} {p : Pattern} {position : Nat}

theorem opposite_walkSource : d.opposite.walkSource w = d.walkTarget w := by cases d <;> rfl

theorem opposite_walkTarget : d.opposite.walkTarget w = d.walkSource w := by cases d <;> rfl

theorem opposite_canBoard : d.opposite.canBoard p position = d.canAlight p position := by
  cases d <;> rfl

theorem opposite_canAlight : d.opposite.canAlight p position = d.canBoard p position := by
  cases d <;> rfl

end Direction

namespace BoundScene

variable {c : BoundScene} {course : Course} {net : Network} {d : Direction}
  {s s₁ s₂ s₃ : BoundState}
  {egress : List Connector} {stop rides : Nat} {rideFirst : Bool} {duration : Span} {cost : Cost}

/-- The seconds of a ride do not depend on the direction in which they are counted. -/
theorem rideSpan_eq (hd : c.direction = d.opposite) {trip : Trip} {boardPosition position : Nat} :
    c.rideSpan trip position boardPosition =
      d.gap (d.boardingAt trip boardPosition) (d.alightingAt trip position) := by
  rw [rideSpan, hd, Direction.opposite_gap, Direction.opposite_boardingAt,
    Direction.opposite_alightingAt]

/-- All rides have been taken into account, but those from marked stops, and all walks. -/
structure Closed (c : BoundScene) (net : Network) (s : BoundState) : Prop where
  rides : ∀ ⦃i source stop boardPosition position : Nat⦄ ⦃p : Pattern⦄ ⦃t : Timetable⦄ ⦃trip : Trip⦄
    ⦃b : StopBound⦄, net.patterns[i]? = some p → net.timetables[i]? = some t → trip ∈ t.trips →
    p.stops[boardPosition]? = some source → c.direction.canBoard p boardPosition = .ok true →
    p.stops[position]? = some stop → c.direction.canAlight p position = .ok true →
    c.direction.precedes boardPosition position = true →
    s.touched.contains source = false → s.stops[source]? = some b → b.duration < unreached →
    s.Found c.tariff.RidesCost stop true (b.duration + c.rideSpan trip boardPosition position)
      (b.cost + (c.tariff.transitFactor trip.reluctance * c.rideSpan trip boardPosition position +
        c.boardingPrice p position))
  walks : ∀ ⦃w : Walk⦄, net.HasWalk w → c.WalksTo s s w

/-- What remains with at most the rides of the rounds made has been found. -/
def Reaches (c : BoundScene) (net : Network) (egress : List Connector) (s : BoundState)
    (count : Nat) : Prop :=
  ∀ ⦃stop rides : Nat⦄ ⦃rideFirst : Bool⦄ ⦃duration : Span⦄ ⦃cost : Cost⦄,
    net.Remains c.direction.opposite c.tariff c.rules egress stop rideFirst rides duration cost →
    rides ≤ count → duration < unreached → ∃ b, s.stops[stop]? = some b ∧
      b.AtMost c.tariff.RidesCost rideFirst duration cost ∧ b.rides ≤ rides

/-- What remains with few enough rides has been found. -/
theorem Reaches.found {count : Nat} (h : c.Reaches net egress s count)
    (hremains : net.Remains c.direction.opposite c.tariff c.rules egress stop rideFirst rides
      duration cost)
    (hrides : rides ≤ count) (hshort : duration < unreached) :
    s.Found c.tariff.RidesCost stop rideFirst duration cost := by
  obtain ⟨b, hb, hle, -⟩ := h hremains hrides hshort
  exact ⟨b, hb, hle⟩

/-- The state at the beginning of the next round. -/
def turn (s : BoundState) : BoundState := (s.advance (s.round + 1)).2

/-- What a round does: it rides from the stops that are marked, takes the legs that start on board
if it is the first one, and walks from the stops where rides have ended. -/
inductive Round (c : BoundScene) (course : Course) : BoundState → BoundState → Prop
  | mk {s s₁ s₂ s₃ : BoundState} (sound : s₃.Sound course.network.stopCount)
    (lowers : (turn s).Lowers s₁) (rides : c.Rides course.network (turn s) s₁)
    (seeds : s₁.Lowers s₂)
    (seeded : s.round = 0 → ∀ leg ∈ course.onBoardAccess, leg.stop < course.network.stopCount →
      s₂.Found c.tariff.RidesCost leg.stop true leg.duration leg.cost)
    (strolls : s₂.Strolls s₃)
    (walks : ∀ w, course.network.HasWalk w →
      s₂.ridden.contains (c.direction.walkSource w) = true → c.WalksTo s₂ s₃ w) :
    Round c course s s₃

theorem Round.sound (h : c.Round course s s₁) : s₁.Sound course.network.stopCount := by
  cases h with
  | mk sound => exact sound

/-- A round makes no value higher. -/
theorem Round.lowers (h : c.Round course s s₁) : (turn s).Lowers s₁ := by
  cases h with
  | mk _ lowers _ seeds _ strolls => exact (lowers.trans seeds).trans strolls.lowers

theorem Round.rides_found (h : c.Round course s s₁) : c.Rides course.network (turn s) s₁ := by
  cases h with
  | mk _ _ rides seeds _ strolls =>
    exact fun i p t hp ht position => (rides i p t hp ht position).mono (seeds.trans strolls.lowers)

theorem Round.seeds_found (h : c.Round course s s₁) (hfirst : s.round = 0) {leg : Connector}
    (hleg : leg ∈ course.access) (honBoard : leg.onBoard = true)
    (hstop : leg.stop < course.network.stopCount) :
    s₁.Found c.tariff.RidesCost leg.stop true leg.duration leg.cost := by
  cases h with
  | mk _ _ _ _ seeded strolls =>
    exact strolls.lowers.found (seeded hfirst leg (List.mem_filter.mpr ⟨hleg, honBoard⟩) hstop)

theorem Round.round_eq (h : c.Round course s s₁) : s₁.round = s.round + 1 := h.lowers.round_eq

/-- A ride from a stop that was marked is taken into account by the round, and one from another stop
has been so before. -/
theorem Round.ride_found (h : c.Round course s s₁) (hclosed : c.Closed course.network s)
    {i source boardPosition position : Nat} {p : Pattern} {t : Timetable} {trip : Trip}
    {b : StopBound} (hp : course.network.patterns[i]? = some p)
    (ht : course.network.timetables[i]? = some t)
    (htrip : trip ∈ t.trips) (hsource : p.stops[boardPosition]? = some source)
    (hboards : c.direction.canBoard p boardPosition = .ok true)
    (hstop : p.stops[position]? = some stop)
    (halights : c.direction.canAlight p position = .ok true)
    (hprecedes : c.direction.precedes boardPosition position = true)
    (hb : s.stops[source]? = some b) (hshort : b.duration < unreached) :
    s₁.Found c.tariff.RidesCost stop true (b.duration + c.rideSpan trip boardPosition position)
      (b.cost + (c.tariff.transitFactor trip.reluctance * c.rideSpan trip boardPosition position +
        c.boardingPrice p position)) := by
  cases hmarked : s.touched.contains source with
  | true =>
    exact h.rides_found i p t hp ht position htrip ⟨source, hsource, hboards, hmarked, hb, hshort⟩
      hprecedes halights hstop
  | false =>
    exact h.lowers.found (hclosed.rides hp ht htrip hsource hboards hstop halights hprecedes hmarked
      hb hshort)

/-- After a round everything has been taken into account but the rides from the stops that it has
marked. -/
theorem Round.closed (h : c.Round course s s₁) (hclosed : c.Closed course.network s) :
    c.Closed course.network s₁ where
  rides := by
    intro i source stop boardPosition position p t trip b hp ht htrip hsource hboards hstop halights
      hprecedes hmarked hb hshort
    obtain ⟨-, hkept⟩ := h.lowers.touched hmarked
    rw [hkept] at hb
    exact h.ride_found hclosed hp ht htrip hsource hboards hstop halights hprecedes hb hshort
  walks := by
    intro w hwalk b hb hshort
    cases h with
    | @mk _ s₂ _ _ lowers _ seeds _ strolls walks =>
      obtain ⟨b₁, hb₁⟩ := BoundState.exists_of_size_eq strolls.lowers.size_eq.symm hb
      obtain ⟨hduration, hcost⟩ := strolls.rides_eq hb₁ hb
      rw [hduration] at hshort ⊢
      rw [hcost]
      cases hridden : s₂.ridden.contains (c.direction.walkSource w) with
      | true => exact walks w hwalk hridden hb₁ hshort
      | false =>
        -- no ride of the round has ended where the walk starts
        have lowers := lowers.trans seeds
        obtain ⟨b₀, hb₀⟩ := BoundState.exists_of_size_eq lowers.size_eq.symm hb₁
        obtain ⟨hduration₀, hcost₀⟩ := (lowers.ridden hridden).2 hb₀ hb₁
        rw [hduration₀] at hshort ⊢
        rw [hcost₀]
        exact (lowers.trans strolls.lowers).found (hclosed.walks hwalk hb₀ hshort)

/-- What remains before a ride is found when the ride is taken into account, since it lasts and
costs the same in both directions. -/
theorem found_before_ride {p : Pattern} {trip : Trip} {boardPosition position : Nat} {b : StopBound}
    (hfound : s.Found c.tariff.RidesCost stop true
      (b.duration + c.rideSpan trip position boardPosition)
      (b.cost + (c.tariff.transitFactor trip.reluctance * c.rideSpan trip position boardPosition +
        c.boardingPrice p boardPosition)))
    (hle : b.AtMost c.tariff.RidesCost rideFirst duration cost) :
    s.Found c.tariff.RidesCost stop true
      (duration + c.direction.opposite.gap (c.direction.opposite.boardingAt trip boardPosition)
        (c.direction.opposite.alightingAt trip position))
      (cost + (c.tariff.transitFactor trip.reluctance *
        c.direction.opposite.gap (c.direction.opposite.boardingAt trip boardPosition)
          (c.direction.opposite.alightingAt trip position) +
        c.tariff.leastBoarding c.rules c.direction.opposite p.id boardPosition)) := by
  rw [rideSpan_eq (c.direction.opposite_opposite).symm] at hfound
  have hduration := hle.duration_le
  refine hfound.weaken (by linarith) fun hpriced => ?_
  have := hle.cost_le hpriced
  rw [boardingPrice]
  linarith

/-- What remains before a walk is found once all walks have been taken into account. -/
theorem Closed.found_before_walk (hclosed : c.Closed net s) {w : Walk} (hwalk : net.HasWalk w)
    (hfound : s.Found c.tariff.RidesCost (c.direction.opposite.walkTarget w) true duration cost)
    (hshort : duration < unreached) :
    s.Found c.tariff.RidesCost (c.direction.opposite.walkSource w) false (duration + w.duration)
      (cost + c.tariff.walk * w.duration) := by
  obtain ⟨b, hb, hle⟩ := hfound
  rw [Direction.opposite_walkTarget] at hb
  rw [Direction.opposite_walkSource]
  have hduration := hle.rideDuration_le rfl
  refine (hclosed.walks hwalk hb (lt_of_le_of_lt hduration hshort)).weaken (by linarith)
    fun hpriced => ?_
  have := hle.rideCost_le rfl hpriced
  linarith

/-- A round finds what remains with one more ride. The leg to the end is one if it is on board. -/
theorem Round.found_first (h : c.Round course s s₁) (hclosed : c.Closed course.network s)
    (hreaches : c.Reaches course.network course.access s s.round)
    (hremains : course.network.Remains c.direction.opposite c.tariff c.rules course.access stop
      rideFirst rides duration cost) (hfirst : rideFirst = true) (hrides : rides ≤ s.round + 1)
    (hshort : duration < unreached) : s₁.Found c.tariff.RidesCost stop true duration cost := by
  cases hremains with
  | walk => cases hfirst
  | @finish leg hleg hstop =>
    by_cases hzero : s.round = 0
    · exact h.seeds_found hzero hleg hfirst hstop
    · have hone : leg.onBoard.toNat ≤ s.round := by
        rw [hfirst]
        exact Nat.one_le_iff_ne_zero.mpr hzero
      have hfound := hreaches.found (.finish hleg hstop) hone hshort
      rw [hfirst] at hfound
      exact h.lowers.found hfound
  | @ride i boardPosition position stop target rides p t trip rideFirst duration cost hp ht htrip
      hstop hboards htarget halights hprecedes after hshort' =>
    obtain ⟨b, hb, hle⟩ := hreaches.found after (Nat.le_of_succ_le_succ hrides) hshort'
    rw [← Direction.opposite_canAlight, Direction.opposite_opposite] at hboards
    rw [← Direction.opposite_canBoard, Direction.opposite_opposite] at halights
    rw [Direction.opposite_precedes] at hprecedes
    exact found_before_ride (h.ride_found hclosed hp ht htrip htarget halights hstop hboards
      hprecedes hb (lt_of_le_of_lt hle.duration_le hshort')) hle

/-- What remains with one more ride has been found after a round. -/
theorem Round.reaches (h : c.Round course s s₁) (hclosed : c.Closed course.network s)
    (hreaches : c.Reaches course.network course.access s s.round) :
    c.Reaches course.network course.access s₁ s₁.round := by
  intro stop rides rideFirst duration cost hremains hrides hshort
  rw [h.round_eq] at hrides
  by_cases hbefore : rides ≤ s.round
  · obtain ⟨b, hb, hle, hless⟩ := hreaches hremains hbefore hshort
    obtain ⟨b₁, hb₁⟩ := BoundState.exists_of_size_eq h.lowers.size_eq hb
    have hlower := h.lowers.noMore hb hb₁
    exact ⟨b₁, hb₁, hle.noMore hlower, hlower.rides_le.trans hless⟩
  have hfound : s₁.Found c.tariff.RidesCost stop rideFirst duration cost := by
    cases hfirst : rideFirst with
    | true => exact h.found_first hclosed hreaches hremains hfirst hrides hshort
    | false =>
      cases hremains with
      | finish =>
        rw [hfirst] at hbefore
        exact absurd (Nat.zero_le _) hbefore
      | ride => cases hfirst
      | walk hwalk after hshort' =>
        exact (h.closed hclosed).found_before_walk hwalk
          (h.found_first hclosed hreaches after rfl hrides hshort') hshort'
  obtain ⟨b, hb, hle⟩ := hfound
  refine ⟨b, hb, hle, ?_⟩
  have := h.sound.rides_le hb (lt_of_le_of_lt hle.duration_le hshort)
  have := h.round_eq
  omega

/-- Where a round has marked no stop, everything that remains has been found. -/
theorem Closed.found (hclosed : c.Closed net s) (hreaches : c.Reaches net egress s s.round)
    (hnone : ∀ stop, s.touched.contains stop = false)
    (hlegs : ∀ leg ∈ egress, leg.onBoard.toNat ≤ s.round)
    (hremains : net.Remains c.direction.opposite c.tariff c.rules egress stop rideFirst rides
      duration cost)
    (hshort : duration < unreached) : s.Found c.tariff.RidesCost stop rideFirst duration cost := by
  induction hremains with
  | finish hleg hstop => exact hreaches.found (.finish hleg hstop) (hlegs _ hleg) hshort
  | ride hp ht htrip hstop hboards htarget halights hprecedes after hshort' ih =>
    obtain ⟨b, hb, hle⟩ := ih hshort'
    rw [← Direction.opposite_canAlight, Direction.opposite_opposite] at hboards
    rw [← Direction.opposite_canBoard, Direction.opposite_opposite] at halights
    rw [Direction.opposite_precedes] at hprecedes
    exact found_before_ride (hclosed.rides hp ht htrip htarget halights hstop hboards hprecedes
      (hnone _) hb (lt_of_le_of_lt hle.duration_le hshort')) hle
  | walk hwalk _ hshort' ih => exact hclosed.found_before_walk hwalk (ih hshort') hshort'

/-- Before any round nothing but the stops of some legs has been reached. -/
structure Seeded (c : BoundScene) (net : Network) (legs : List Connector) (s : BoundState) :
    Prop where
  sound : s.Sound net.stopCount
  round_eq : s.round = 0
  found : ∀ leg ∈ legs, leg.stop < net.stopCount →
    s.Found c.tariff.RidesCost leg.stop false leg.duration leg.cost
  fresh : ∀ {stop : Nat} {b : StopBound}, s.stops[stop]? = some b → b.rideDuration = unreached ∧
    (s.touched.contains stop = false → b.duration = unreached)

theorem seeded_start (time : Time) :
    c.Seeded net [] (BoundState.start time (.new net.stopCount)) where
  sound := by
    constructor
    · simp [BoundState.start, BoundState.new]
    · simp [BoundState.start, BoundState.new]
    · simp [BoundState.start, BoundState.new]
    · simp [BoundState.start, BoundState.new]
    · intro stop b hb hshort
      simp only [BoundState.start, BoundState.new, Array.getElem?_replicate] at hb
      split at hb
      · obtain rfl := Option.some.inj hb
        exact absurd hshort (lt_irrefl _)
      · cases hb
  round_eq := rfl
  found := by simp
  fresh := by
    intro stop b hb
    simp only [BoundState.start, BoundState.new, Array.getElem?_replicate] at hb
    split at hb
    · obtain rfl := Option.some.inj hb
      exact ⟨rfl, fun _ => rfl⟩
    · cases hb

/-- One more leg. -/
theorem Seeded.seed {legs : List Connector} {leg : Connector} (h : c.Seeded net legs s) :
    c.Seeded net (legs ++ [leg]) (s.arrive leg.stop leg.duration leg.cost false) := by
  have harrives := s.arrives leg.stop leg.duration leg.cost false
  have hstrolls := harrives.strolls h.sound
  refine ⟨harrives.sound h.sound, hstrolls.lowers.round_eq.trans h.round_eq, ?_, ?_⟩
  · intro leg' hleg hstop
    rcases List.mem_append.mp hleg with hleg | hleg
    · exact hstrolls.lowers.found (h.found leg' hleg hstop)
    · obtain rfl := List.mem_singleton.mp hleg
      exact harrives.found h.sound hstop
  · intro stop b' hb'
    obtain ⟨b, hb⟩ := BoundState.exists_of_size_eq hstrolls.lowers.size_eq.symm hb'
    refine ⟨(hstrolls.rides_eq hb hb').1.trans (h.fresh hb).1, fun hmarked => ?_⟩
    obtain ⟨hmarked, hkept⟩ := hstrolls.lowers.touched hmarked
    rw [hkept] at hb'
    exact (h.fresh hb').2 hmarked

/-- In the beginning nothing is missing: nothing has arrived on board, nor at a stop without a mark.
-/
theorem Seeded.closed {legs : List Connector} (h : c.Seeded net legs s) : c.Closed net s where
  rides := by
    intro i source stop boardPosition position p t trip b _ _ _ _ _ _ _ _ hmarked hb hshort
    exact absurd ((h.fresh hb).2 hmarked) (ne_of_lt hshort)
  walks := by
    intro w _ b hb hshort
    exact absurd (h.fresh hb).1 (ne_of_lt hshort)

/-- In the beginning only the legs at the end remain without a ride. -/
theorem Seeded.reaches {legs : List Connector} (h : c.Seeded net legs s)
    (hlegs : ∀ leg ∈ egress, leg.onBoard = false → leg ∈ legs) :
    c.Reaches net egress s s.round := by
  intro stop rides rideFirst duration cost hremains hrides hshort
  rw [h.round_eq] at hrides
  cases hremains with
  | @finish leg hleg hstop =>
    have hwalks : leg.onBoard = false := by
      cases honBoard : leg.onBoard with
      | false => rfl
      | true =>
        rw [honBoard] at hrides
        exact absurd hrides (Nat.not_succ_le_zero _)
    obtain ⟨b, hb, hle⟩ := h.found _ (hlegs _ hleg hwalks) hstop
    rw [hwalks]
    refine ⟨b, hb, hle, ?_⟩
    have := h.sound.rides_le hb (lt_of_le_of_lt hle.duration_le hshort)
    rwa [h.round_eq] at this
  | ride => exact absurd hrides (Nat.not_succ_le_zero _)
  | walk _ after => exact absurd (after.rides_pos rfl) (Nat.not_lt.mpr hrides)

/-- What remains with no more rides than a search makes is found. -/
def Finds (c : BoundScene) (course : Course) (s : BoundState) : Prop :=
  ∀ ⦃rides : Nat⦄, course.Allows rides → c.Reaches course.network course.access s rides

theorem Reaches.mono {count fewer : Nat} (h : c.Reaches net egress s count)
    (hfewer : fewer ≤ count) :
    c.Reaches net egress s fewer :=
  fun _ _ _ _ _ hremains hrides => h hremains (hrides.trans hfewer)

/-- The rounds of a search find everything that remains with no more rides. -/
theorem yields_rounds (hnet : course.network.Sound) (hof : c.Of course.network)
    (hd : course.direction = c.direction) {time : Time} {progress : Progress BoundState}
    (hmarks : progress.marks = .empty course.network.patternCount)
    (hseeded : c.Seeded course.network course.walkingAccess progress.state) :
    Yields (roundsFrom (boundScheme c) course time course.maxRounds 1 progress) fun progress' =>
      c.Finds course progress'.state ∧
      progress'.marks = .empty course.network.patternCount := by
  refine yields_roundsFrom (n := course.maxRounds + 1)
    (B := fun round state => (state.round + 1 = round ∧ round < 256) ∧
      state.Sound course.network.stopCount ∧ c.Closed course.network state ∧
      c.Reaches course.network course.access state state.round)
    (D := c.Finds course)
    ?_ ?_ (Nat.add_comm _ _) hmarks ?_
  · rintro _ state hlast ⟨⟨rfl, -⟩, hsound, hclosed, hreaches⟩
    refine ⟨fun hstops => ?_, fun _ => ?_⟩
    · -- no stop was marked
      simp only [Course.goesOn, Bool.or_eq_false_iff, BoundState.advance, Bool.not_eq_false',
        Bool.and_eq_false_imp, beq_iff_eq, List.isEmpty_iff] at hstops
      have hunmarked := IndexSet.isEmpty_iff.mp hstops.1
      have hlegs : ∀ leg ∈ course.access, leg.onBoard.toNat ≤ state.round := by
        intro leg hleg
        by_cases hzero : state.round = 0
        · have hnone := List.filter_eq_nil_iff.mp (hstops.2 (congrArg (· + 1) hzero)) leg hleg
          rw [Bool.not_eq_true] at hnone
          rw [hnone]
          exact Nat.zero_le _
        · exact (Bool.toNat_le leg.onBoard).trans (Nat.one_le_iff_ne_zero.mpr hzero)
      intro count _ stop rides rideFirst duration cost hremains hrides hshort
      by_cases hbefore : rides ≤ state.round
      · exact hreaches hremains hbefore hshort
      · obtain ⟨b, hb, hle⟩ := hclosed.found hreaches hunmarked hlegs hremains hshort
        have := hsound.rides_le hb (lt_of_le_of_lt hle.duration_le hshort)
        exact ⟨b, hb, hle, by omega⟩
    · have hturn : (turn state).Sound course.network.stopCount := by
        refine ⟨hsound.stops_size, ?_, hsound.touched_size, ?_, fun hb hshort => ?_⟩
        · simpa [turn, BoundState.advance] using hsound.touched_size
        · simpa [turn, BoundState.advance] using hsound.ridden_size
        · exact (hsound.rides_le hb hshort).trans (Nat.le_succ _)
      refine (yields_transitRound hnet hof hd hturn).mono ?_
      rintro ⟨s₁, marks⟩ - ⟨⟨hs₁, hlowers, hrides⟩, rfl⟩
      refine ⟨?_, rfl⟩
      refine (yields_boardRound hs₁).mono ?_
      rintro s₂ - ⟨hs₂, hseeds, hseeded⟩
      refine (yields_walkRound hnet hd hs₂).mono ?_
      rintro s₃ - ⟨hs₃, hstrolls, hwalked⟩ hbyte
      have hround : c.Round course state s₃ := .mk hs₃ hlowers hrides hseeds
        (fun hzero => hseeded (congrArg (· + 1) hzero)) hstrolls hwalked
      exact ⟨⟨by rw [hround.round_eq], hbyte⟩, hs₃, hround.closed hclosed,
        hround.reaches hclosed hreaches⟩
  · rintro state ⟨⟨hlast, hbyte⟩, -, -, hreaches⟩ count hcount
    obtain hlast : state.round = course.maxRounds := Nat.succ_injective hlast
    rw [hlast] at hreaches
    exact hreaches.mono (hcount (by omega))
  · refine ⟨⟨by rw [hseeded.round_eq], by omega⟩, hseeded.sound, hseeded.closed,
      hseeded.reaches ?_⟩
    intro leg hleg honBoard
    exact List.mem_filter.mpr ⟨hleg, by rw [honBoard]; rfl⟩

/-- The only iteration of a search finds everything that remains with no more rides than there are
rounds. -/
theorem yields_run (hnet : course.network.Sound) (hof : c.Of course.network)
    (hd : course.direction = c.direction) {time : Time} :
    Yields (run (boundScheme c) course .unlimited
      (.new course (.new course.network.stopCount)) [time]) fun progress =>
      c.Finds course progress.state := by
  refine (JourneyPlanner.yields_run (A := fun done state =>
    (done = [] → state = .new course.network.stopCount) ∧
    (done ≠ [] → c.Finds course state))
    rfl ⟨fun _ => rfl, by simp⟩ ?_).mono ?_
  · rintro done time' rest progress hsplit hmarks ⟨hfirst, -⟩
    obtain rfl : done = [] := by
      cases done with
      | nil => rfl
      | cons _ done =>
        have := congrArg List.length hsplit
        simp at this
    have hstate := hfirst rfl
    refine (yields_iterate (A := fun done state => c.Seeded course.network done state)
      (D := c.Finds course) hmarks ?_ ?_ ?_).mono ?_
    · rw [hstate]
      exact seeded_start time'
    · intro done leg rest state _ hseeded
      exact hseeded.seed
    · intro progress' hmarks' hseeded
      exact yields_rounds hnet hof hd hmarks' hseeded
    · rintro progress' - ⟨hreaches, hmarks'⟩
      exact ⟨⟨by simp, fun _ => hreaches⟩, hmarks'⟩
  · rintro progress - ⟨-, hreaches⟩
    exact hreaches (by simp)

end BoundScene

/-- Bounds are below everything that remains with no more rides than a search makes. Costs are so
unless a ride gets cheaper by taking longer. -/
def Bounds.Below (bounds : Bounds) (course : Course) (tariff : Tariff) (rules : Option RuleIndex)
    (egress : List Connector) : Prop :=
  ∀ ⦃stop rides : Nat⦄ ⦃rideFirst : Bool⦄ ⦃duration : Span⦄ ⦃cost : Cost⦄,
    course.network.Remains course.direction tariff rules egress stop rideFirst rides duration cost →
    course.Allows rides → duration < unreached →
    ∃ b, bounds.at? stop = some b ∧ b.duration ≤ duration ∧ b.transfers ≤ rides ∧
      (tariff.RidesCost → b.cost ≤ cost)

/-- The rules that a request follows are those of the network. -/
theorem Network.rules_of_request {net : Network} {request : Request} {index : RuleIndex}
    (h : request.rules net = some index) : net.rules = some index := by
  unfold Request.rules at h
  split at h
  · exact h
  · cases h

/-- The bounds for a request are below everything that remains. -/
theorem Network.yields_bounds {net : Network} {request : Request} {tariff : Tariff}
    (hnet : net.Sound) : Yields (net.bounds request tariff) fun bounds =>
      bounds.Below (net.labelCourse request) tariff (request.rules net) request.searchEgress := by
  unfold Network.bounds
  refine (BoundScene.yields_run hnet (fun _ => Network.rules_of_request) rfl).bind
    fun progress _ hfinds => ?_
  intro stop rides rideFirst duration cost hremains hallowed hshort
  change net.Remains request.direction _ _ _ _ _ _ _ _ at hremains
  rw [← Direction.opposite_opposite request.direction] at hremains
  obtain ⟨b, hb, hle, hless⟩ := hfinds hallowed hremains le_rfl hshort
  refine ⟨⟨b.duration, b.rides, b.cost⟩, ?_, hle.duration_le, hless, hle.cost_le⟩
  have hget : progress.state.bounds.stops[stop]? = some b := hb
  rw [Bounds.at?, hget]
  exact if_neg (ne_of_lt (lt_of_le_of_lt hle.duration_le hshort))

/-- In both directions, the bounds at a stop are below everything that can remain of a journey there
with no more rides than there are rounds: its seconds without waits and slacks, its rides, and its
cost, unless a ride gets cheaper by taking longer. -/
theorem bounds_below {draft : Draft} {net : Network} {request : Request} {tariff : Tariff}
    (hbuild : draft.build = .ok net) (hcost : tariff.RidesCost) :
    Yields (net.bounds request tariff) fun bounds =>
      ∀ stop rides rideFirst duration cost,
        net.Remains request.direction tariff (request.rules net) request.searchEgress stop rideFirst
          rides duration cost →
        rides ≤ request.maxRounds → duration < unreached →
        ∃ b, bounds.at? stop = some b ∧ b.duration ≤ duration ∧ b.transfers ≤ rides ∧
          b.cost ≤ cost := by
  refine (Network.yields_bounds (Draft.build_sound hbuild)).mono ?_
  intro bounds _ hbelow stop rides rideFirst duration cost hremains hrides hshort
  obtain ⟨b, hb, hduration, htransfers, hcosts⟩ := hbelow hremains (fun _ => hrides) hshort
  exact ⟨b, hb, hduration, htransfers, hcosts hcost⟩

/-- The bounds at C are below a ride on the blue line from there and the walk from D. -/
theorem bounds_below_blue : ∃ net bounds b, twoLines.build = .ok net ∧ plainTariff.RidesCost ∧
    net.bounds (fromAToD .forward true) plainTariff = .ok bounds ∧ bounds.at? 2 = some b ∧
    b.duration ≤ 200 + 1500 ∧ b.transfers ≤ 1 ∧ b.cost ≤ 400 + (100 * 1500 + 60000) := by
  have hbuilds : twoLines.builds (fun net => decide (
      (net.bounds (fromAToD .forward true) plainTariff).toOption.isSome = true ∧
      3 < net.stopCount ∧ ∃ p ∈ net.patterns[1]?, ∃ t ∈ net.timetables[1]?, ∃ trip ∈ t.trips[0]?,
        p.stops[0]? = some 2 ∧ p.stops[1]? = some 3 ∧
        Direction.forward.canBoard p 0 = .ok true ∧ Direction.forward.canAlight p 1 = .ok true ∧
        Direction.forward.gap (Direction.forward.boardingAt trip 0)
          (Direction.forward.alightingAt trip 1) = 1500 ∧ trip.reluctance = 0 ∧
        plainTariff.leastBoarding ((fromAToD .forward true).rules net) .forward p.id 0 = 60000)) =
      true := by
    decide +kernel
  obtain ⟨net, hbuild, hfacts⟩ := Draft.exists_of_builds hbuilds
  obtain ⟨hbounds, hstops, p, hp, t, ht, trip, htrip, hsource, htarget, hboards, halights, hspan,
    hreluctance, hboarding⟩ := of_decide_eq_true hfacts
  have hcost : plainTariff.RidesCost := fun reluctance => by
    simp [plainTariff, Tariff.transitFactor, defaultTransitFactor]
  have hegress : (⟨3, 200, 400, false⟩ : Connector) ∈ (fromAToD .forward true).searchEgress := by
    decide
  have hremains : net.Remains .forward plainTariff ((fromAToD .forward true).rules net)
      (fromAToD .forward true).searchEgress _ _ _ _ _ :=
    .ride hp ht (Array.mem_of_getElem? htrip) hsource hboards htarget halights rfl
      (.finish hegress hstops) (by decide)
  cases hresult : net.bounds (fromAToD .forward true) plainTariff with
  | error fault =>
    rw [hresult] at hbounds
    cases hbounds
  | ok bounds =>
    obtain ⟨b, hb, hduration, htransfers, hle⟩ :=
      (bounds_below hbuild hcost).of_ok hresult _ _ _ _ _
      hremains (by decide) (by rw [hspan]; decide)
    rw [hspan] at hduration hle
    rw [hboarding, hreluctance] at hle
    exact ⟨net, bounds, b, hbuild, hcost, hresult, hb, hduration, htransfers, hle⟩

end JourneyPlanner
