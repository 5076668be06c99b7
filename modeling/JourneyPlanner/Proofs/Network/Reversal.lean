import JourneyPlanner.Proofs.Concur
import JourneyPlanner.Proofs.Network.Built

/-!
# Networks in reversed time

When time runs backwards a trip visits its stops from the last one to the first one, at the opposite
times, and arrives where it departed. Whoever was allowed to board there is allowed to alight, walks
lead from their end to their start, and the trip that ran last runs first.

* `Pattern.reversed`, `Trip.reversed`, `Timetable.reversed`, `Walk.reversed`, `Network.reversed`:
  the parts of a network, and the network, in reversed time.
* `Network.Sound.reversed`: a sound network is sound in reversed time.
* `Trip.Opposed`, `Timetable.Opposed`: what a trip, or a timetable, has in common with its reversal.
* `Timetable.Opposed.bestTrip`: the trip to take in a direction is the one to take in the opposite
  direction in reversed time.
-/

namespace JourneyPlanner

/-! ### Parts of a network -/

def Flow.reversed : Flow → Flow
  | .boardOnly => .alightOnly
  | .alightOnly => .boardOnly
  | .boardAndAlight => .boardAndAlight
  | .neither => .neither

/-- The position that is as far from the end of a pattern as another one from its start. -/
def fromEnd (length position : Nat) : Nat := length - 1 - position

def Pattern.reversed (p : Pattern) : Pattern :=
  { p with
    stops := p.stops.reverse
    flows := (p.flows.map Flow.reversed).reverse }

/-- Opposite times in the opposite order. -/
def reverseTimes (times : Array Time) : Array Time := (times.map fun time => -time).reverse

def Trip.reversed (trip : Trip) : Trip :=
  { trip with
    arrivals := reverseTimes trip.departures
    departures := reverseTimes trip.arrivals }

/-- A timetable in reversed time, whose trips do not know their new ranks yet. -/
def Timetable.reversed (t : Timetable) : Timetable :=
  { t with
    trips := (t.trips.map Trip.reversed).reverse
    departures := (t.arrivals.map reverseTimes).reverse
    arrivals := (t.departures.map reverseTimes).reverse }

def Walk.reversed (walk : Walk) : Walk :=
  { walk with source := walk.target, target := walk.source }

/-- A network in reversed time, without transfer rules. -/
def Network.reversed (net : Network) : Network :=
  let patterns := net.patterns.map Pattern.reversed
  { net with
    patterns
    timetables := (net.timetables.map Timetable.reversed).mapIdx fun pattern t => t.number pattern
    patternsAt := Draft.patternsByStop net.stopCount patterns
    walksFrom := net.walksTo.map (List.map Walk.reversed)
    walksTo := net.walksFrom.map (List.map Walk.reversed)
    rules := none }

/-! ### Positions -/

section

variable {length position other first : Nat}

theorem fromEnd_lt (h : position < length) : fromEnd length position < length := by
  unfold fromEnd
  omega

theorem fromEnd_fromEnd (h : position < length) :
    fromEnd length (fromEnd length position) = position := by
  unfold fromEnd
  omega

theorem getElem?_reverse_fromEnd {α : Type} {xs : Array α} (hsize : xs.size = length)
    (h : position < length) : xs.reverse[fromEnd length position]? = xs[position]? := by
  subst hsize
  rw [Array.getElem?_reverse (fromEnd_lt h)]
  congr 1
  exact fromEnd_fromEnd h

namespace Direction

variable {d : Direction}

/-- In the opposite direction, positions counted from the end follow each other as before. -/
theorem precedes_fromEnd (h : position < length) (h' : other < length) :
    d.opposite.precedes (fromEnd length position)
      (fromEnd length other) = d.precedes position other := by
  rw [Bool.eq_iff_iff]
  cases d <;> simp only [opposite, precedes, decide_eq_true_eq] <;> unfold fromEnd <;> omega

/-- In the opposite direction, ranks counted from the last trip follow each other as before. -/
theorem rankNoLater_fromEnd (h : position < length) (h' : other < length) :
    d.opposite.RankNoLater (fromEnd length position)
      (fromEnd length other) ↔ d.RankNoLater position other := by
  cases d <;> simp only [opposite, RankNoLater, fromEnd] <;> omega

/-- In reversed time the positions of a pattern are visited in the order of the other direction. -/
theorem positionsFrom_fromEnd (hfirst : first < length) :
    d.opposite.positionsFrom (fromEnd length first) length =
      (d.positionsFrom first length).map (fromEnd length) := by
  apply List.ext_getElem
  · cases d <;> simp [positionsFrom, opposite, fromEnd] <;> omega
  · intro i hi hi'
    cases d <;>
      simp [positionsFrom, opposite, fromEnd] at hi hi' ⊢ <;> omega

end Direction

end

/-! ### Times -/

namespace Direction

variable {d : Direction} {a b x : Int}

theorem shift_neg : d.opposite.shift (-a) x = -d.shift a x := by
  cases d <;> simp only [opposite, shift] <;> ring

theorem gap_neg : d.opposite.gap (-a) (-b) = d.gap a b := by
  cases d <;> simp only [opposite, gap] <;> ring

theorem shift_zero_neg : d.opposite.shift 0 (-x) = d.shift 0 x := by
  cases d <;> simp only [opposite, shift] <;> ring

/-- The opposite search meets opposite times in the same order. -/
theorem noLater_neg : d.opposite.NoLater (-a) (-b) ↔ d.NoLater a b := by
  rw [noLater_iff, noLater_iff, gap_neg]

theorem isBeforeOrEqual_neg : d.opposite.isBeforeOrEqual (-a) (-b) = d.isBeforeOrEqual a b := by
  rw [Bool.eq_iff_iff, isBeforeOrEqual_iff, isBeforeOrEqual_iff, noLater_neg]

/-- The opposite search goes on from opposite times to opposite times. -/
theorem concur_plus :
    Concur (fun time time' => time' = -time) (d.plus a x) (d.opposite.plus (-a) x) := by
  refine .of_yields yields_plus yields_plus ?_
  rintro _ _ ⟨rfl, -⟩ ⟨rfl, -⟩
  exact shift_neg

end Direction

/-! ### Patterns -/

theorem Flow.boards_reversed (flow : Flow) : flow.reversed.boards = flow.alights := by
  cases flow <;> rfl

theorem Flow.alights_reversed (flow : Flow) : flow.reversed.alights = flow.boards := by
  cases flow <;> rfl

namespace Pattern

variable {p : Pattern} {position : Nat}

@[simp] theorem length_reversed : p.reversed.length = p.length := by
  simp [length, reversed]

theorem getElem?_stops_reversed (h : position < p.length) :
    p.reversed.stops[fromEnd p.length position]? = p.stops[position]? :=
  getElem?_reverse_fromEnd rfl h

theorem stopAt_reversed (h : position < p.length) :
    p.reversed.stopAt (fromEnd p.length position) = p.stopAt position := by
  rw [stopAt, stopAt, fetch, fetch, getElem?_stops_reversed h]

/-- What is allowed at a position is what is allowed there in reversed time. -/
theorem map_fetch_flows_reversed (hflows : p.flows.size = p.length) (h : position < p.length)
    {allows allows' : Flow → Bool} (hallows : ∀ flow, allows flow.reversed = allows' flow) :
    (fetch p.reversed.flows (fromEnd p.length position)).map allows =
      (fetch p.flows position).map allows' := by
  simp only [fetch, reversed]
  rw [getElem?_reverse_fromEnd (by simpa using hflows) h, Array.getElem?_map]
  cases p.flows[position]? with
  | none => rfl
  | some flow => exact congrArg Except.ok (hallows flow)

theorem canBoard_reversed (hflows : p.flows.size = p.length) (h : position < p.length) :
    p.reversed.canBoard (fromEnd p.length position) = p.canAlight position := by
  have hinside : fromEnd p.length position + 1 < p.length ↔ 0 < position := by
    unfold fromEnd
    omega
  simp only [canBoard, canAlight, length_reversed, hinside,
    map_fetch_flows_reversed hflows h Flow.boards_reversed]

theorem canAlight_reversed (hflows : p.flows.size = p.length) (h : position < p.length) :
    p.reversed.canAlight (fromEnd p.length position) = p.canBoard position := by
  have hinside : 0 < fromEnd p.length position ↔ position + 1 < p.length := by
    unfold fromEnd
    omega
  simp only [canBoard, canAlight, hinside,
    map_fetch_flows_reversed hflows h Flow.alights_reversed]

end Pattern

namespace Direction

variable {d : Direction} {p : Pattern} {position : Nat}

/-- The opposite search may board a reversed pattern where the search may board the pattern. -/
theorem canBoard_reversed (hflows : p.flows.size = p.length) (h : position < p.length) :
    d.opposite.canBoard p.reversed (fromEnd p.length position) =
      d.canBoard p position := by
  cases d with
  | forward => exact Pattern.canAlight_reversed hflows h
  | reverse => exact Pattern.canBoard_reversed hflows h

theorem canAlight_reversed (hflows : p.flows.size = p.length) (h : position < p.length) :
    d.opposite.canAlight p.reversed (fromEnd p.length position) =
      d.canAlight p position := by
  cases d with
  | forward => exact Pattern.canBoard_reversed hflows h
  | reverse => exact Pattern.canAlight_reversed hflows h

theorem walkTarget_reversed (walk : Walk) :
    d.opposite.walkTarget walk.reversed = d.walkTarget walk := by
  cases d <;> rfl

end Direction

/-! ### Trips -/

section

variable {times : Array Time} {trip other trip' : Trip} {length position : Nat}

@[simp] theorem size_reverseTimes : (reverseTimes times).size = times.size := by
  simp [reverseTimes]

/-- At the opposite position stands the opposite time. -/
theorem getD_reverseTimes (hsize : times.size = length) (h : position < length) :
    (reverseTimes times).getD (fromEnd length position) 0 = -times.getD position 0 := by
  have hposition : position < times.size := by omega
  rw [reverseTimes, Array.getD_eq_getD_getElem?, getElem?_reverse_fromEnd (by simpa using hsize) h]
  simp [hposition]

namespace Trip

/-- A trip and its reversal have opposite times at opposite positions. -/
structure Opposed (length : Nat) (trip trip' : Trip) : Prop where
  fits : trip.Fits length
  fits_reversed : trip'.Fits length
  service_eq : trip'.service = trip.service
  reluctance_eq : trip'.reluctance = trip.reluctance
  boardingAt : ∀ (d : Direction) {position : Nat}, position < length →
    d.opposite.boardingAt trip' (fromEnd length position) = -d.boardingAt trip position

theorem Fits.reversed (h : trip.Fits length) : trip.reversed.Fits length where
  departures_size := by simpa [Trip.reversed] using h.arrivals_size
  arrivals_size := by simpa [Trip.reversed] using h.departures_size

theorem Fits.opposed (h : trip.Fits length) : trip.Opposed length trip.reversed where
  fits := h
  fits_reversed := h.reversed
  service_eq := rfl
  reluctance_eq := rfl
  boardingAt d position hposition := by
    cases d with
    | forward => exact getD_reverseTimes h.departures_size hposition
    | reverse => exact getD_reverseTimes h.arrivals_size hposition

/-- Opposed trips are left at opposite times. -/
theorem Opposed.alightingAt (h : trip.Opposed length trip') (d : Direction)
    (hposition : position < length) :
    d.opposite.alightingAt trip' (fromEnd length position) = -d.alightingAt trip position := by
  have := h.boardingAt d.opposite hposition
  rwa [Direction.opposite_boardingAt, Direction.opposite_boardingAt] at this

/-- The trip that was never after another one is never before it in reversed time. -/
theorem NeverAfter.reversed (h : trip.NeverAfter other) (hfits : trip.Fits length)
    (hfits' : other.Fits length) : other.reversed.NeverAfter trip.reversed := by
  intro position
  rcases Nat.lt_or_ge position length with hlt | hge
  · rw [← fromEnd_fromEnd hlt]
    have hlt := fromEnd_lt hlt
    simp only [Trip.reversed, getD_reverseTimes hfits.departures_size hlt,
      getD_reverseTimes hfits.arrivals_size hlt, getD_reverseTimes hfits'.departures_size hlt,
      getD_reverseTimes hfits'.arrivals_size hlt, neg_le_neg_iff]
    exact (h _).symm
  · have houtside : ∀ times : Array Time, times.size = length →
        (reverseTimes times).getD position 0 = 0 := by
      intro times hsize
      have : (reverseTimes times)[position]? = none :=
        Array.getElem?_eq_none (by rw [size_reverseTimes]; omega)
      rw [Array.getD_eq_getD_getElem?, this]
      rfl
    simp only [Trip.reversed, houtside _ hfits.departures_size, houtside _ hfits.arrivals_size,
      houtside _ hfits'.departures_size, houtside _ hfits'.arrivals_size]
    exact ⟨le_rfl, le_rfl⟩

end Trip

end

/-! ### Timetables -/

namespace Timetable

variable {t t' : Timetable} {length position rank : Nat} {trip : Trip}

/-- The columns of a timetable in reversed time list the times of the reversed trips. -/
theorem reverse_columns (value value' : Trip → Array Time)
    (hvalue : ∀ trip, value' trip.reversed = reverseTimes (value trip))
    (hsize : ∀ trip ∈ t.trips, (value trip).size = length) :
    (((Array.range length).map fun position =>
        t.trips.map fun trip => (value trip).getD position 0).map reverseTimes).reverse =
      (Array.range length).map fun position =>
        (t.trips.map Trip.reversed).reverse.map fun trip => (value' trip).getD position 0 := by
  have hcolumn : ∀ position < length,
      reverseTimes (t.trips.map fun trip => (value trip).getD (fromEnd length position) 0) =
        (t.trips.map Trip.reversed).reverse.map fun trip => (value' trip).getD position 0 := by
    intro position hlt
    rw [reverseTimes, Array.map_map, Array.map_reverse, Array.map_map]
    refine congrArg Array.reverse (Array.map_congr_left fun trip htrip => ?_)
    simp only [Function.comp, hvalue]
    rw [← getD_reverseTimes (hsize trip htrip) (fromEnd_lt hlt), fromEnd_fromEnd hlt]
  apply Array.ext
  · simp
  · intro position hposition hposition'
    have hlt : position < length := by simpa using hposition'
    simpa [fromEnd] using hcolumn position hlt

/-- The columns of reversed times are sorted again, and no trip is overtaken by one before it. -/
theorem Sound.reversed (ht : t.Sound length) : t.reversed.Sound length where
  fits := by
    intro trip htrip
    obtain ⟨trip, hmem, rfl⟩ := Array.mem_map.mp (Array.mem_reverse.mp htrip)
    exact (ht.fits trip hmem).reversed
  departures_eq := by
    show (t.arrivals.map reverseTimes).reverse = _
    rw [ht.arrivals_eq]
    exact reverse_columns _ _ (fun _ => rfl) fun trip htrip => (ht.fits trip htrip).arrivals_size
  arrivals_eq := by
    show (t.departures.map reverseTimes).reverse = _
    rw [ht.departures_eq]
    exact reverse_columns _ _ (fun _ => rfl) fun trip htrip => (ht.fits trip htrip).departures_size
  ordered := by
    simp only [Timetable.reversed, Array.toList_reverse, Array.toList_map, List.pairwise_reverse,
      List.pairwise_map]
    refine ht.ordered.imp_of_mem fun ha hb h => ?_
    exact h.reversed (ht.fits _ (Array.mem_toList_iff.mp ha))
      (ht.fits _ (Array.mem_toList_iff.mp hb))

/-- A timetable and its reversal list opposed trips in opposite orders. -/
structure Opposed (length : Nat) (t t' : Timetable) : Prop where
  sound : t.Sound length
  sound_reversed : t'.Sound length
  size_eq : t'.size = t.size
  opposed : ∀ {rank : Nat} {trip : Trip}, t.trips[rank]? = some trip →
    ∃ trip', t'.trips[fromEnd t.size rank]? = some trip' ∧ trip.Opposed length trip'

/-- A timetable and its reversal are opposed, whichever pattern the reversal is numbered for. -/
theorem Sound.opposed (ht : t.Sound length) (pattern : PatternId) :
    Opposed length t (t.reversed.number pattern) where
  sound := ht
  sound_reversed := ht.reversed.number pattern
  size_eq := by simp [size, Timetable.reversed, Timetable.number]
  opposed := by
    intro rank trip htrip
    have hrank : rank < t.size := (Array.getElem?_eq_some_iff.mp htrip).1
    have hopposed := (ht.fits trip (Array.mem_of_getElem? htrip)).opposed
    refine ⟨{ trip.reversed with pattern, rank := fromEnd t.size rank }, ?_, ?_⟩
    · have hreversed : t.reversed.trips[fromEnd t.size rank]? = some trip.reversed := by
        show (t.trips.map Trip.reversed).reverse[fromEnd t.size rank]? = _
        rw [getElem?_reverse_fromEnd (by simp [size]) hrank, Array.getElem?_map, htrip]
        rfl
      rw [Timetable.number, Array.getElem?_mapIdx, hreversed]
      rfl
    · exact ⟨hopposed.fits, ⟨hopposed.fits_reversed.departures_size,
        hopposed.fits_reversed.arrivals_size⟩, rfl, rfl, hopposed.boardingAt⟩

/-- A trip of a numbered timetable in reversed time has the route and the reluctance of a trip of
the timetable. -/
theorem exists_of_mem_reversed_number {t : Timetable} {i : Nat} {trip : Trip}
    (h : trip ∈ (t.reversed.number i).trips) :
    ∃ trip₀ ∈ t.trips, trip.route = trip₀.route ∧ trip.reluctance = trip₀.reluctance ∧
      trip.pattern = i := by
  obtain ⟨rank, hrank⟩ := Array.mem_iff_getElem?.mp h
  obtain ⟨unnumbered, hunnumbered, rfl⟩ := getElem?_number hrank
  obtain ⟨trip₀, hmem₀, rfl⟩ := Array.mem_map.mp
    (Array.mem_reverse.mp (Array.mem_of_getElem? hunnumbered))
  exact ⟨trip₀, hmem₀, rfl, rfl, rfl⟩

namespace Opposed

variable (h : Opposed length t t')

include h

theorem rank_lt {trip' : Trip} (htrip : t'.trips[rank]? = some trip') : rank < t.size := by
  rw [← h.size_eq]
  exact (Array.getElem?_eq_some_iff.mp htrip).1

/-- Every trip of the reversal is opposed to one of the timetable. -/
theorem exists_opposed {trip' : Trip} (htrip : t'.trips[rank]? = some trip') :
    ∃ trip, t.trips[fromEnd t.size rank]? = some trip ∧ trip.Opposed length trip' := by
  have hrank := h.rank_lt htrip
  have hinside : t.trips[fromEnd t.size rank]? = some _ :=
    Array.getElem?_eq_getElem (fromEnd_lt hrank)
  obtain ⟨found, hfound, hopposed⟩ := h.opposed hinside
  rw [fromEnd_fromEnd hrank, htrip] at hfound
  obtain rfl := Option.some.inj hfound
  exact ⟨_, hinside, hopposed⟩

variable {d : Direction} {accepts : Trip → Bool} {time : Time}

/-- The rank of the trip to take in reversed time. -/
theorem isBest (haccepts : ∀ trip trip', trip'.service = trip.service →
      accepts trip' = accepts trip)
    (hposition : position < length) {rank? : Option Nat}
    (hbest : t.IsBest d accepts time position rank?) :
    t'.IsBest d.opposite accepts (-time) (fromEnd length position)
      (rank?.map (fromEnd t.size)) := by
  have hnoLater : ∀ {trip trip' : Trip}, trip.Opposed length trip' →
      (d.opposite.NoLater (-time) (d.opposite.boardingAt trip' (fromEnd length position)) ↔
        d.NoLater time (d.boardingAt trip position)) := by
    intro trip trip' hopposed
    rw [hopposed.boardingAt d hposition, Direction.noLater_neg]
  cases rank? with
  | none =>
    intro rank trip' htrip' haccepted hin
    obtain ⟨trip, htrip, hopposed⟩ := h.exists_opposed htrip'
    rw [haccepts _ _ hopposed.service_eq] at haccepted
    exact hbest _ trip htrip haccepted ((hnoLater hopposed).mp hin)
  | some rank =>
    obtain ⟨trip, htrip, haccepted, hin, hfirst⟩ := hbest
    obtain ⟨trip', htrip', hopposed⟩ := h.opposed htrip
    refine ⟨trip', htrip', ?_, (hnoLater hopposed).mpr hin, ?_⟩
    · rw [haccepts _ _ hopposed.service_eq, haccepted]
    · intro rank' other' hother' haccepted' hin'
      obtain ⟨other, hother, hopposed'⟩ := h.exists_opposed hother'
      rw [haccepts _ _ hopposed'.service_eq] at haccepted'
      have hrank : rank < t.size := (Array.getElem?_eq_some_iff.mp htrip).1
      have hrank' := h.rank_lt hother'
      rw [← fromEnd_fromEnd hrank', Direction.rankNoLater_fromEnd hrank (fromEnd_lt hrank')]
      exact hfirst _ other hother haccepted' ((hnoLater hopposed').mp hin')

end Opposed

/-- Only one trip is the first one. -/
theorem IsBest.unique {d : Direction} {accepts : Trip → Bool} {time : Time} {a b : Option Nat}
    (ha : t.IsBest d accepts time position a) (hb : t.IsBest d accepts time position b) :
    a = b := by
  cases a with
  | none =>
    cases b with
    | none => rfl
    | some rank =>
      obtain ⟨trip, htrip, haccepted, hin, -⟩ := hb
      exact absurd hin (ha rank trip htrip haccepted)
  | some rank =>
    obtain ⟨trip, htrip, haccepted, hin, hfirst⟩ := ha
    cases b with
    | none => exact absurd hin (hb rank trip htrip haccepted)
    | some other =>
      obtain ⟨trip', htrip', haccepted', hin', hfirst'⟩ := hb
      have hle := hfirst other trip' htrip' haccepted' hin'
      have hge := hfirst' rank trip htrip haccepted hin
      cases d with
      | forward => exact congrArg some (le_antisymm hle hge)
      | reverse => exact congrArg some (le_antisymm hge hle)

/-- The trips to take in both directions of time are opposed to each other. -/
theorem Opposed.bestTrip (h : Opposed length t t') {d : Direction} {time : Time}
    (accepts : Trip → Bool)
    (haccepts : ∀ trip trip', trip'.service = trip.service → accepts trip' = accepts trip)
    (hposition : position < length) :
    Concur (Option.Rel fun found found' => t.trips[found.1]? = some found.2 ∧
        found'.1 = fromEnd t.size found.1 ∧ found.2.Opposed length found'.2)
      (t.bestTrip d accepts time position)
      (t'.bestTrip d.opposite accepts (-time) (fromEnd length position)) := by
  refine .of_yields (h.sound.yields_bestTrip hposition d accepts time)
    (h.sound_reversed.yields_bestTrip (fromEnd_lt hposition) d.opposite accepts (-time)) ?_
  rintro found found' ⟨hbest, htrip⟩ ⟨hbest', htrip'⟩
  have hrank := hbest'.unique (h.isBest haccepts hposition hbest)
  cases found with
  | none =>
    cases found' with
    | none => exact .none
    | some => cases hrank
  | some found =>
    cases found' with
    | none => cases hrank
    | some found' =>
      obtain ⟨trip', hfound', hopposed⟩ := h.opposed (htrip _ _ rfl)
      have hrank : found'.1 = fromEnd t.size found.1 := Option.some.inj hrank
      rw [← hrank, htrip' _ _ rfl] at hfound'
      obtain rfl := Option.some.inj hfound'
      exact .some ⟨htrip _ _ rfl, hrank, hopposed⟩

end Timetable

/-! ### Networks -/

theorem Walk.mem_map_reversed {walks : List Walk} {walk : Walk} :
    walk ∈ walks.map Walk.reversed ↔ walk.reversed ∈ walks := by
  rw [List.mem_map]
  constructor
  · rintro ⟨other, hother, rfl⟩
    exact hother
  · intro h
    exact ⟨walk.reversed, h, rfl⟩

namespace Network

variable {net : Network} {i stop : Nat}

theorem getElem?_patterns_reversed :
    net.reversed.patterns[i]? = (net.patterns[i]?).map Pattern.reversed := by
  simp [reversed]

theorem getElem?_timetables_reversed :
    net.reversed.timetables[i]? = (net.timetables[i]?).map fun t => t.reversed.number i := by
  simp [reversed, Option.map_map, Function.comp_def]

theorem exists_of_patterns_reversed {p : Pattern} (h : net.reversed.patterns[i]? = some p) :
    ∃ p₀, net.patterns[i]? = some p₀ ∧ p = p₀.reversed := by
  obtain ⟨p₀, hp₀, rfl⟩ := Option.map_eq_some_iff.mp (getElem?_patterns_reversed.symm.trans h)
  exact ⟨p₀, hp₀, rfl⟩

theorem exists_of_timetables_reversed {t : Timetable}
    (h : net.reversed.timetables[i]? = some t) :
    ∃ t₀, net.timetables[i]? = some t₀ ∧ t = t₀.reversed.number i := by
  obtain ⟨t₀, ht₀, rfl⟩ := Option.map_eq_some_iff.mp (getElem?_timetables_reversed.symm.trans h)
  exact ⟨t₀, ht₀, rfl⟩

/-- The walks of a search in reversed time are the reversed ones of the search. -/
theorem walks_reversed (d : Direction) :
    net.reversed.walks d.opposite stop = List.map Walk.reversed <$> net.walks d stop := by
  have hfetch : ∀ table : Array (List Walk),
      fetch (table.map (List.map Walk.reversed)) stop =
        List.map Walk.reversed <$> fetch table stop := by
    intro table
    simp only [fetch, Array.getElem?_map]
    cases table[stop]? <;> rfl
  cases d with
  | forward => exact hfetch net.walksFrom
  | reverse => exact hfetch net.walksTo

/-- The walks of the reversed network are the declared ones the other way round. -/
theorem hasWalk_reversed (hnet : net.Sound) {walk : Walk} :
    net.reversed.HasWalk walk ↔ net.HasWalk walk.reversed := by
  constructor
  · rintro ⟨walks, hwalks, hmem⟩
    obtain ⟨walks, hto, rfl⟩ := Option.map_eq_some_iff.mp
      ((Array.getElem?_map ..).symm.trans hwalks)
    exact ((hnet.mem_walksTo hto _).mp (Walk.mem_map_reversed.mp hmem)).1
  · intro h
    have hlt : walk.source < net.walksTo.size := by
      rw [hnet.walksTo_size]
      exact hnet.walk_target_lt h
    have hto : net.walksTo[walk.source]? = some _ := Array.getElem?_eq_getElem hlt
    refine ⟨_, (Array.getElem?_map ..).trans (congrArg (Option.map _) hto), ?_⟩
    exact Walk.mem_map_reversed.mpr ((hnet.mem_walksTo hto _).mpr ⟨h, rfl⟩)

namespace Sound

/-- A sound network is sound in reversed time. -/
theorem reversed (hnet : net.Sound) : net.reversed.Sound := by
  have hid : ∀ {i : Nat} {p : Pattern}, net.reversed.patterns[i]? = some p → p.id = i := by
    intro i p hp
    obtain ⟨p₀, hp₀, rfl⟩ := exists_of_patterns_reversed hp
    show p₀.id = i
    exact hnet.pattern_id hp₀
  constructor
  case timetables_size => simpa [Network.reversed] using hnet.timetables_size
  case pattern_id => exact hid
  case flows_size =>
    intro i p hp
    obtain ⟨p₀, hp₀, rfl⟩ := exists_of_patterns_reversed hp
    rw [Pattern.length_reversed, ← hnet.flows_size hp₀]
    simp [Pattern.reversed]
  case stop_lt =>
    intro i position stop p hp hstop
    obtain ⟨p₀, hp₀, rfl⟩ := exists_of_patterns_reversed hp
    obtain ⟨position₀, hstop₀⟩ := Array.mem_iff_getElem?.mp
      (Array.mem_reverse.mp (Array.mem_of_getElem? hstop))
    exact hnet.stop_lt hp₀ hstop₀
  case timetable_sound =>
    intro i p t hp ht
    obtain ⟨p₀, hp₀, rfl⟩ := exists_of_patterns_reversed hp
    obtain ⟨t₀, ht₀, rfl⟩ := exists_of_timetables_reversed ht
    rw [Pattern.length_reversed]
    exact (hnet.timetable_sound hp₀ ht₀).reversed.number i
  case trip_route =>
    intro i rank p t trip hp ht hrank
    obtain ⟨p₀, hp₀, rfl⟩ := exists_of_patterns_reversed hp
    obtain ⟨t₀, ht₀, rfl⟩ := exists_of_timetables_reversed ht
    obtain ⟨trip₀, hmem, hroute, -⟩ :=
      Timetable.exists_of_mem_reversed_number (Array.mem_of_getElem? hrank)
    obtain ⟨rank₀, hrank₀⟩ := Array.mem_iff_getElem?.mp hmem
    show trip.route = p₀.route
    rw [hroute]
    exact hnet.trip_route hp₀ ht₀ hrank₀
  case trip_pattern =>
    intro i rank t trip ht hrank
    obtain ⟨t₀, ht₀, rfl⟩ := exists_of_timetables_reversed ht
    obtain ⟨-, -, -, -, hpattern⟩ :=
      Timetable.exists_of_mem_reversed_number (Array.mem_of_getElem? hrank)
    exact hpattern
  case same_reluctance =>
    intro i t ht trip hmem other hmem'
    obtain ⟨t₀, ht₀, rfl⟩ := exists_of_timetables_reversed ht
    obtain ⟨trip₀, hmem₀, -, hreluctance, -⟩ := Timetable.exists_of_mem_reversed_number hmem
    obtain ⟨other₀, hmem₀', -, hreluctance', -⟩ := Timetable.exists_of_mem_reversed_number hmem'
    rw [hreluctance, hreluctance']
    exact hnet.same_reluctance ht₀ trip₀ hmem₀ other₀ hmem₀'
  case patternsAt_size => simp [Network.reversed, Draft.patternsByStop, stopCount]
  case mem_patternsAt => exact fun hvisits => Draft.mem_patternsByStop hid hvisits
  case walksFrom_size => simpa [Network.reversed, stopCount] using hnet.walksTo_size
  case walksTo_size => simpa [Network.reversed, stopCount] using hnet.walksFrom_size
  case mem_walksFrom =>
    intro stop walks hwalks walk
    obtain ⟨walks, hto, rfl⟩ := Option.map_eq_some_iff.mp
      ((Array.getElem?_map ..).symm.trans hwalks)
    rw [Walk.mem_map_reversed, hnet.mem_walksTo hto, hasWalk_reversed hnet]
    rfl
  case mem_walksTo =>
    intro stop walks hwalks walk
    obtain ⟨walks, hfrom, rfl⟩ := Option.map_eq_some_iff.mp
      ((Array.getElem?_map ..).symm.trans hwalks)
    rw [Walk.mem_map_reversed, hnet.mem_walksFrom hfrom, hasWalk_reversed hnet]
    rfl
  case walk_target_lt =>
    intro walk hwalk
    obtain ⟨walks, hfrom, -⟩ := (hasWalk_reversed hnet).mp hwalk
    have := (Array.getElem?_eq_some_iff.mp hfrom).1
    rwa [hnet.walksFrom_size] at this
  case rules_eq =>
    intro index hindex
    cases hindex

end Sound

end Network

/-! ### Visits -/

namespace Draft

/-- The visits of a stop in a network that was built are those of its patterns, in their order. -/
theorem build_patternsAt {draft : Draft} {net : Network} (h : draft.build = .ok net) :
    net.patternsAt = patternsByStop net.stopCount net.patterns := by
  obtain ⟨placement, -, hstops, hpatterns, -, hvisits, -⟩ := build_eq h
  rw [hvisits, hpatterns, Network.stopCount, hstops]
  simp [stopTable]

/-- A stop has the same number of visits of each pattern in reversed time. -/
theorem map_fst_patternsByStop_reversed (stopCount : Nat) (patterns : Array Pattern)
    (stop : StopId) :
    ((patternsByStop stopCount (patterns.map Pattern.reversed)).getD stop []).map (·.1) =
      ((patternsByStop stopCount patterns).getD stop []).map (·.1) := by
  have hvisits : ∀ (id : PatternId) (stops : List StopId),
      ((stops.zipIdx.filter fun visit => visit.1 == stop).map fun visit =>
        (id, visit.2)).map (·.1) = List.replicate (stops.count stop) id := by
    intro id stops
    rw [List.map_map, List.eq_replicate_iff]
    constructor
    · rw [List.length_map, ← List.countP_eq_length_filter, List.count,
        ← List.zipIdx_map_fst 0 stops, List.countP_map]
      simp [Function.comp_def]
    · simp only [List.mem_map, Function.comp]
      rintro _ ⟨_, -, rfl⟩
      rfl
  by_cases hstop : stop < stopCount
  · simp only [patternsByStop, Array.getD_eq_getD_getElem?, Array.getElem?_map,
      Array.getElem?_range, if_pos hstop, Option.map_some, Option.getD_some, List.map_flatMap,
      hvisits, Array.toList_map, List.flatMap_map]
    simp [Pattern.reversed]
  · simp [patternsByStop, hstop]

end Draft

end JourneyPlanner
