import JourneyPlanner.Proofs.Network.Built
import JourneyPlanner.Proofs.Search.Offers
import JourneyPlanner.Proofs.Search.Rounds

/-!
# The rides of a round

A round offers the arrival by every ride after a label of the round before, or one that is at least
as good: a pattern is ridden past all its positions where such a label allows to board, and of the
trips on board only those are dropped that another one is at least as good as for the rest of the
pattern.

* `LabelScene.BoardsAt`: a trip is boarded after a label of the round before.
* `LabelScene.Decides`: it is known which trip is boarded after each of these labels.
* `LabelScene.RidesTo`, `LabelScene.RidesOn`: the labels at the end of rides.
* `LabelScene.yields_transitRound`: the rides of a round try all of them.
-/

namespace JourneyPlanner

namespace LabelScene

structure Of (c : LabelScene) (net : Network) : Prop where
  stopCount_eq : c.stopCount = net.stopCount
  rules_eq : ∀ index, c.rules = some index → net.rules = some index

/-- What a search needs to know about the rules of a pattern, when it follows rules. -/
def ruleSearch (c : LabelScene) (p : Pattern) : Option RuleSearch :=
  c.rules.map fun index =>
    let entries := match c.direction with
      | .forward => index.forward
      | .reverse => index.reverse
    ⟨c.direction, entries.getD p.id ⟨#[]⟩, index.stations, c.definitive⟩

/-- A trip is boarded at a position of a pattern after a label of the round before. -/
def BoardsAt (c : LabelScene) (s : Labels) (p : Pattern) (t : Timetable) (position : Nat)
    (e : Boarded) (k : AboardCriteria) : Prop :=
  ∃ stop id label, p.stops[position]? = some stop ∧ c.direction.canBoard p position = .ok true ∧
    s.Holds id label ∧ label.stop = stop ∧ label.round + 1 = s.round ∧
    label.iteration = s.iteration ∧
    c.choose s t (c.ruleSearch p) id label stop position = .ok (some (e, k))

/-- A pattern may be boarded at a position after a label of the round before. -/
structure Boardable (c : LabelScene) (s : Labels) (p : Pattern) (position : Nat) (id : LabelId)
    (label : Label) : Prop where
  boards : c.direction.canBoard p position = .ok true
  stop : p.stops[position]? = some label.stop
  holds : s.Holds id label
  round : label.round + 1 = s.round
  iteration : label.iteration = s.iteration

/-- After every label of the round before it is known which trip is boarded at a position of a
pattern, if any. -/
def DecidesAt (c : LabelScene) (s : Labels) (p : Pattern) (t : Timetable) (position : Nat) : Prop :=
  ∀ ⦃id : LabelId⦄ ⦃label : Label⦄, c.Boardable s p position id label →
    ∃ chosen, c.choose s t (c.ruleSearch p) id label label.stop position = .ok chosen

/-- After every label of the round before it is known which trip of a pattern is boarded, unless
the pattern is without trips. -/
def DecidesOn (c : LabelScene) (net : Network) (s : Labels) (i : PatternId) : Prop :=
  ∀ ⦃p : Pattern⦄ ⦃t : Timetable⦄ ⦃position : Nat⦄, net.patterns[i]? = some p →
    net.timetables[i]? = some t → t.size ≠ 0 → c.DecidesAt s p t position

/-- The labels at a position of a pattern by rides after labels of the round before. -/
def RidesTo (c : LabelScene) (s : Labels) (p : Pattern) (t : Timetable) (position : Nat)
    (l : Label) : Prop :=
  ∃ stop boardPosition e k, p.stops[position]? = some stop ∧
    c.direction.canAlight p position = .ok true ∧
    c.direction.precedes boardPosition position = true ∧ c.BoardsAt s p t boardPosition e k ∧
    l = c.alighted stop position s.round s.iteration e

/-- The labels at the end of rides on a pattern after labels of the round before. -/
def RidesOn (c : LabelScene) (net : Network) (s : Labels) (i : PatternId) (l : Label) : Prop :=
  ∃ p t position, net.patterns[i]? = some p ∧ net.timetables[i]? = some t ∧
    c.RidesTo s p t position l

variable {c : LabelScene} {net : Network} {s s₁ : Labels} {maxRounds length i position : Nat}
  {p : Pattern} {t : Timetable} {kind : Label → Prop} {id : LabelId} {label : Label}
  {stop : StopId} {rules : Option RuleSearch} {e : Boarded} {k : AboardCriteria}

/-! ### Choices -/

/-- A choice is settled by the rules about the change, or else the first trip that can be boarded
regularly. -/
theorem choose_eq_some
    (h : c.choose s t rules id label stop position = .ok (some (e, k))) :
    (∃ found rideEnd, c.ruled s t rules label position = .ok (some (found, rideEnd)) ∧
      found.constraint.isNotAllowed = false ∧
      e = c.boarded id label stop position found.trip found.constraint (some rideEnd) ∧
      k = c.aboardCriteria found.rank e) ∨
    (c.ruled s t rules label position = .ok none ∧ ∃ rank trip,
      t.bestTrip c.direction c.runs (c.earliest label) position = .ok (some (rank, trip)) ∧
      e = c.boarded id label stop position trip .regular none ∧
      k = c.aboardCriteria rank e) := by
  unfold choose at h
  cases hruled : c.ruled s t rules label position with
  | error fault =>
    rw [hruled] at h
    cases h
  | ok ruled =>
    rw [hruled] at h
    cases ruled with
    | some ruled =>
      obtain ⟨found, rideEnd⟩ := ruled
      cases hallowed : found.constraint.isNotAllowed with
      | true =>
        simp only [bind, Except.bind, hallowed, if_true] at h
        cases h
      | false =>
        simp only [bind, Except.bind, hallowed, Bool.false_eq_true, if_false] at h
        cases h
        exact .inl ⟨found, rideEnd, rfl, hallowed, rfl, rfl⟩
    | none =>
      cases hbest : t.bestTrip c.direction c.runs (c.earliest label) position with
      | error fault =>
        simp only [bind, Except.bind, hbest] at h
        cases h
      | ok best =>
        simp only [bind, Except.bind, hbest] at h
        cases best with
        | none => cases h
        | some best =>
          cases h
          exact .inr ⟨rfl, best.1, best.2, rfl, rfl, rfl⟩

theorem ruleSearch_eq_none (hrules : c.rules = none) : c.ruleSearch p = none := by
  rw [ruleSearch, hrules]
  rfl

/-- Without rules the first trip is boarded that can be. -/
theorem choose_eq_bestTrip {t : Timetable} {stop : StopId} {position : Nat} :
    c.choose s t none id label stop position =
      (t.bestTrip c.direction c.runs (c.earliest label) position).map (Option.map fun ranked =>
        (c.boarded id label stop position ranked.2 .regular none,
          c.aboardCriteria ranked.1 (c.boarded id label stop position ranked.2 .regular
            none))) := by
  show (t.bestTrip c.direction c.runs (c.earliest label) position >>= _) = _
  cases t.bestTrip c.direction c.runs (c.earliest label) position with
  | error fault => rfl
  | ok best => cases best <;> rfl

/-- What the rules settle is found by them after the last ride. -/
theorem ruled_eq_some {found : Boarding} {rideEnd : Time}
    (h : c.ruled s t rules label position = .ok (some (found, rideEnd))) :
    ∃ search ride rideStop, rules = some search ∧ s.lastRide label = .ok (some (ride, rideStop)) ∧
      search.find t (c.changeAt label ride rideStop position) c.runs = .ok (some found) ∧
      rideEnd = ride.alightTime := by
  unfold ruled at h
  cases rules with
  | none => cases h
  | some search =>
    dsimp only at h
    split at h
    · cases h
    · cases hlast : s.lastRide label with
      | error fault =>
        rw [hlast] at h
        cases h
      | ok last =>
        rw [hlast] at h
        cases last with
        | none => cases h
        | some last =>
          cases hfind : search.find t (c.changeAt label last.1 last.2 position) c.runs with
          | error fault =>
            simp only [bind, Except.bind, hfind] at h
            cases h
          | ok result =>
            simp only [bind, Except.bind, hfind] at h
            cases result with
            | none => cases h
            | some result =>
              cases h
              exact ⟨search, last.1, last.2, rfl, rfl, hfind, rfl⟩

/-- What holds of a trip that is chosen, however the choice came about. -/
structure Chosen (c : LabelScene) (t : Timetable) (id : LabelId) (stop : StopId)
    (position : Nat) (e : Boarded) (k : AboardCriteria) : Prop where
  trip : t.trips[k.rank]? = some e.trip
  runs : c.runs e.trip = true
  previous : e.previous = id
  stop : e.stop = stop
  position : e.position = position
  time : e.time = c.direction.boardingAt e.trip e.position
  criteria : k = c.aboardCriteria k.rank e

theorem chosen_of_choose (ht : t.Sound p.length) (hposition : position < p.length)
    (h : c.choose s t rules id label stop position = .ok (some (e, k))) :
    c.Chosen t id stop position e k := by
  rcases choose_eq_some h with ⟨found, rideEnd, hruled, -, rfl, rfl⟩ | ⟨-, rank, trip,
    hbest, rfl, rfl⟩
  · obtain ⟨search, ride, rideStop, -, -, hfind, -⟩ := ruled_eq_some hruled
    have hsettles := Yields.of_ok (RuleSearch.yields_find ht hposition) hfind found rfl
    exact ⟨hsettles.trip, hsettles.accepted, rfl, rfl, rfl, rfl, rfl⟩
  · obtain ⟨⟨found, hfound, hruns, -⟩, htrip⟩ := (ht.yields_bestTrip hposition _ _ _).of_ok hbest
    have htrip := htrip rank trip rfl
    obtain rfl := Option.some.inj (hfound.symm.trans htrip)
    exact ⟨htrip, hruns, rfl, rfl, rfl, rfl, rfl⟩

/-- What is chosen after a label does not depend on what has been added since. -/
theorem choose_eq (hs : s.Sound c.direction c.stopCount maxRounds)
    (hkept : ∀ {id : LabelId} {l : Label}, s.arena[id]? = some l → s₁.arena[id]? = some l)
    (hlabel : s.arena[id]? = some label) :
    c.choose s₁ t rules id label stop position = c.choose s t rules id label stop position := by
  have hlast : s₁.lastRide label = s.lastRide label := by
    unfold Labels.lastRide
    cases horigin : label.origin with
    | access | ride => rfl
    | walk source duration previous =>
      have hlt := hs.previous_lt hlabel (by rw [horigin]; rfl)
      have hprevious := Array.getElem?_eq_getElem
        (hlt.trans (Array.getElem?_eq_some_iff.mp hlabel).1)
      simp only [Labels.label, fetch_of_getElem? hprevious,
        fetch_of_getElem? (hkept hprevious)]
  unfold choose ruled
  rw [hlast]

/-! ### Leaving the trips on board -/

/-- The cost at the alighting is the relative cost of a trip on board and that of riding since the
origin of times. -/
theorem alighted_cost_eq (hk : k = c.aboardCriteria k.rank e) {round iteration : Nat} :
    (c.alighted stop position round iteration e).cost = k.relativeCost +
      k.factor * c.direction.gap 0 (c.direction.alightingAt e.trip position) +
      (c.tariff.wait * c.slacks.afterAlighting c.direction + c.tariff.stopCost stop) := by
  have hgap := Direction.gap_add_gap (d := c.direction) (a := 0) (b := e.time)
    (c := c.direction.alightingAt e.trip position)
  have hshift : c.direction.shift 0 e.time = c.direction.gap 0 e.time := by
    cases c.direction <;> simp [Direction.shift, Direction.gap]
  rw [hk]
  simp only [alighted, aboardCriteria, Tariff.ridingPrice, hshift, ← hgap]
  ring

/-- Where riding costs, a trip on board that is at least as good as another one is left no later and
at no higher cost, at whatever position. -/
theorem alighted_noWorse (ht : t.Sound length) {e' : Boarded} {k' : AboardCriteria}
    (htrip : t.trips[k.rank]? = some e.trip) (hk : k = c.aboardCriteria k.rank e)
    (htrip' : t.trips[k'.rank]? = some e'.trip) (hk' : k' = c.aboardCriteria k'.rank e')
    (hdom : c.direction.dominatesAboard k' k = true) {round iteration : Nat} :
    c.direction.NoLater (c.alighted stop position round iteration e').time
        (c.alighted stop position round iteration e).time ∧
      (0 ≤ k.factor → (c.alighted stop position round iteration e').cost ≤
        (c.alighted stop position round iteration e).cost) := by
  obtain ⟨hfactor, hrank, hcost⟩ := Direction.dominatesAboard_iff.mp hdom
  have htime := ht.alightingAt_noLater hrank htrip' htrip position
  refine ⟨htime.shift le_rfl, fun hnonneg => ?_⟩
  rw [alighted_cost_eq hk, alighted_cost_eq hk', hfactor]
  have hgap : c.direction.gap 0 (c.direction.alightingAt e'.trip position) ≤
      c.direction.gap 0 (c.direction.alightingAt e.trip position) := by
    have hsplit := Direction.gap_add_gap (d := c.direction) (a := 0)
      (b := c.direction.alightingAt e'.trip position) (c := c.direction.alightingAt e.trip position)
    have := Direction.noLater_iff.mp htime
    omega
  have := Int.mul_le_mul_of_nonneg_left hgap hnonneg
  linarith

/-- Where a trip on board is at least as good as another one, so is the arrival by it. -/
theorem alighted_better (ht : t.Sound p.length) {e' : Boarded} {k' : AboardCriteria}
    (htrip : t.trips[k.rank]? = some e.trip) (hk : k = c.aboardCriteria k.rank e)
    (htrip' : t.trips[k'.rank]? = some e'.trip) (hk' : k' = c.aboardCriteria k'.rank e')
    (hdom : c.direction.dominatesAboard k' k = true) {round iteration : Nat} :
    (c.alighted stop position round iteration e').Better c
      (c.alighted stop position round iteration e) := by
  obtain ⟨htime, hcost⟩ := alighted_noWorse ht htrip hk htrip' hk' hdom
  refine ⟨rfl, rfl, rfl, rfl, htime, fun hrides => hcost ?_⟩
  rw [hk]
  exact hrides _

/-! ### Riding a pattern -/

/-- The search for rules of a pattern is found in the index. -/
theorem exists_ruleSearch (hnet : net.Sound) (hc : c.Of net) (hp : net.patterns[i]? = some p)
    {index : RuleIndex} (hrules : c.rules = some index) :
    ∃ search, c.ruleSearch p = some search ∧
      index.boardingSearch c.direction p.id c.definitive = .ok search := by
  refine ⟨_, by rw [ruleSearch, hrules]; rfl, ?_⟩
  rw [RuleIndex.boardingSearch, hnet.forPattern_eq hp (hc.rules_eq index hrules)]
  cases c.direction <;> rfl

theorem yields_enter (hnet : net.Sound) (hc : c.Of net) (hp : net.patterns[i]? = some p) :
    Yields (c.enter p t) fun aboard => aboard = ⟨t, c.ruleSearch p, .empty⟩ := by
  unfold enter
  cases hrules : c.rules with
  | none =>
    rw [ruleSearch, hrules]
    rfl
  | some index =>
    obtain ⟨search, hsearch, hfound⟩ := exists_ruleSearch hnet hc hp hrules
    dsimp only
    rw [hfound, hsearch]
    rfl

/-- The trips on board are of a kind, and for every trip of this kind one that is at least as good
is on board. -/
structure Carries (c : LabelScene) (p : Pattern) (t : Timetable)
    (kind : Boarded → AboardCriteria → Prop) (aboard : Aboard) : Prop where
  timetable : aboard.timetable = t
  rules : aboard.rules = c.ruleSearch p
  entry : ∀ {e k}, (e, k) ∈ aboard.front.entries → kind e k
  covers : ∀ {e k}, kind e k → aboard.front.covers c.direction.dominatesAboard k = true

namespace Carries

variable {aboard : Aboard} {kind kind' : Boarded → AboardCriteria → Prop}

theorem congr (h : c.Carries p t kind aboard) (hkind : ∀ e k, kind e k ↔ kind' e k) :
    c.Carries p t kind' aboard where
  timetable := h.timetable
  rules := h.rules
  entry he := (hkind _ _).mp (h.entry he)
  covers hk := h.covers ((hkind _ _).mpr hk)

/-- One more trip that is chosen. -/
theorem take (h : c.Carries p t kind aboard) (chosen : Option (Boarded × AboardCriteria)) :
    c.Carries p t (fun e k => kind e k ∨ chosen = some (e, k)) (c.take aboard chosen) := by
  have hdom := c.direction.dominatesAboard_isOrder.toIsPreorder
  cases chosen with
  | none => exact h.congr fun e k => by simp
  | some ek =>
    refine ⟨h.timetable, h.rules, fun he => ?_, fun hk => ?_⟩
    · exact (Front.mem_add he).imp h.entry fun heq => by rw [heq]
    · rcases hk with hk | heq
      · exact Front.covers_add hdom (h.covers hk)
      · obtain rfl := Option.some.inj heq
        exact Front.covers_add_self hdom

end Carries

/-- A trip is boarded after a label where the pattern may be boarded. -/
theorem BoardsAt.boardable (h : c.BoardsAt s p t position e k) :
    ∃ id label, c.Boardable s p position id label := by
  obtain ⟨stop, id, label, hstop, hboards, hholds, rfl, hround, hiteration, -⟩ := h
  exact ⟨id, label, hboards, hstop, hholds, hround, hiteration⟩

/-- A trip that is boarded after a label of the round before runs in the timetable. -/
theorem BoardsAt.chosen (h : c.BoardsAt s p t position e k) (ht : t.Sound p.length) :
    position < p.length ∧ ∃ id stop, id < s.arena.size ∧ c.Chosen t id stop position e k := by
  obtain ⟨stop, id, label, hstop, -, hholds, -, -, -, hchoose⟩ := h
  have hposition := (Array.getElem?_eq_some_iff.mp hstop).1
  exact ⟨hposition, id, stop, (Array.getElem?_eq_some_iff.mp hholds.1).1,
    chosen_of_choose ht hposition hchoose⟩

variable {course : Course} {aboard : Aboard} {aboardKind : Boarded → AboardCriteria → Prop}

/-- Leaving the trips on board tries the arrivals by all rides to a position. -/
theorem yields_alight (htried : c.Tried maxRounds kind s s₁) (ht : t.Sound p.length)
    (haboard : c.Carries p t (fun e k => ∃ boardPosition,
      c.direction.precedes boardPosition position = true ∧
      c.BoardsAt s p t boardPosition e k) aboard)
    (hstop : p.stops[position]? = some stop)
    (halights : c.direction.canAlight p position = .ok true) :
    Yields (c.alight aboard stop position s₁)
      (c.Tried maxRounds (c.RidesTo s p t position) s₁) := by
  have hposition := (Array.getElem?_eq_some_iff.mp hstop).1
  have hfold : Yields (c.alight aboard stop position s₁) _ := Tried.foldlM
    (K := fun e l => l = c.alighted stop position s.round s.iteration e) htried.sound
    fun e he s₂ kind htried₂ => by
      obtain ⟨⟨e, k⟩, hentry, rfl⟩ := List.mem_map.mp he
      obtain ⟨board, -, hboards⟩ := haboard.entry hentry
      obtain ⟨-, id, stop', hid, hchosen⟩ := hboards.chosen ht
      rw [← htried.round_eq, ← htried₂.round_eq, ← htried.iteration_eq, ← htried₂.iteration_eq]
      refine yields_alightTrip htried₂.sound (ht.fits e.trip (Array.mem_of_getElem? hchosen.trip))
        hposition ?_
      rw [hchosen.previous]
      exact (hid.trans_le htried.size_le).trans_le htried₂.size_le
  refine hfold.mono fun s₂ _ htried₂ => htried₂.widen ?_ ?_
  · rintro l ⟨e, he, rfl⟩
    obtain ⟨⟨e, k⟩, hentry, rfl⟩ := List.mem_map.mp he
    obtain ⟨board, hbefore, hboards⟩ := haboard.entry hentry
    exact ⟨stop, board, e, k, hstop, halights, hbefore, hboards, rfl⟩
  · rintro l ⟨stop', board, e, k, hstop', -, hbefore, hboards, rfl⟩
    obtain rfl := Option.some.inj (hstop.symm.trans hstop')
    obtain ⟨⟨e', k'⟩, hentry, hdom⟩ := Front.covers_iff.mp
      (haboard.covers ⟨board, hbefore, hboards⟩)
    obtain ⟨board', -, hboards'⟩ := haboard.entry hentry
    obtain ⟨-, _, _, -, hchosen⟩ := hboards.chosen ht
    obtain ⟨-, _, _, -, hchosen'⟩ := hboards'.chosen ht
    exact ⟨_, ⟨e', List.mem_map.mpr ⟨_, hentry, rfl⟩, rfl⟩,
      alighted_better ht hchosen.trip hchosen.criteria hchosen'.trip hchosen'.criteria hdom⟩

/-- Boarding after all labels of the round before at a position. -/
theorem yields_boardings (hs : s.Sound c.direction c.stopCount maxRounds)
    (htried : c.Tried maxRounds kind s s₁) (hround : 1 ≤ s.round) (ht : t.Sound p.length)
    (haboard : c.Carries p t aboardKind aboard) (hstop : p.stops[position]? = some stop)
    (hboards : c.direction.canBoard p position = .ok true) {arrivals : List (LabelId × Label)}
    (harrivals : ∀ id label, (id, label) ∈ arrivals ↔ s₁.Holds id label ∧
      label.round = s₁.round - 1 ∧ label.stop = stop ∧ label.iteration = s₁.iteration) :
    Yields ((arrivals.map (·.1)).foldlM
      (fun aboard id => c.board s₁ id stop position aboard) aboard) fun aboard' =>
      c.Carries p t (fun e k => aboardKind e k ∨ c.BoardsAt s p t position e k) aboard' ∧
        c.DecidesAt s p t position := by
  have hposition := (Array.getElem?_eq_some_iff.mp hstop).1
  have hheld : ∀ id label, (id, label) ∈ arrivals ↔ s.Holds id label ∧
      label.round + 1 = s.round ∧ label.stop = stop ∧ label.iteration = s.iteration := by
    intro id label
    rw [harrivals, htried.round_eq, htried.iteration_eq]
    have hlabel : label.round = s.round - 1 ↔ label.round + 1 = s.round := by omega
    rw [hlabel]
    exact and_congr_left fun hrest => htried.holds_iff_of_ne hs (by omega)
  rw [List.foldlM_map]
  have hfold : Yields (arrivals.foldlM
      (fun aboard arrival => c.board s₁ arrival.1 stop position aboard) aboard) fun aboard' =>
      c.Carries p t (fun e k => aboardKind e k ∨ ∃ id label, (id, label) ∈ arrivals ∧
        c.choose s t (c.ruleSearch p) id label stop position = .ok (some (e, k))) aboard' ∧
      ∀ id label, (id, label) ∈ arrivals →
        ∃ chosen, c.choose s t (c.ruleSearch p) id label stop position = .ok chosen := by
    refine Yields.foldlM_done (I := fun before aboard' =>
      c.Carries p t (fun e k => aboardKind e k ∨ ∃ id label, (id, label) ∈ before ∧
        c.choose s t (c.ruleSearch p) id label stop position = .ok (some (e, k))) aboard' ∧
      ∀ id label, (id, label) ∈ before →
        ∃ chosen, c.choose s t (c.ruleSearch p) id label stop position = .ok chosen)
      ⟨haboard.congr fun e k => by simp, by simp⟩ ?_
    rintro before ⟨id, label⟩ aboard' ⟨after, hsplit⟩ ⟨hbefore, hdecided⟩
    obtain ⟨hholds, -⟩ := (hheld id label).mp (by simp [hsplit])
    refine (yields_board htried.sound (htried.kept hholds.1)
      (by rw [hbefore.timetable]; exact ht) hposition).mono ?_
    rintro _ - ⟨chosen, hchosen, rfl⟩
    rw [hbefore.timetable, hbefore.rules, choose_eq hs htried.kept hholds.1] at hchosen
    refine ⟨(hbefore.take chosen).congr fun e k => ?_, fun id' label' hmem => ?_⟩
    · simp only [List.mem_append, List.mem_singleton, Prod.mk.injEq, or_and_right, exists_or,
        or_assoc, and_assoc]
      refine or_congr_right (or_congr_right ⟨fun heq =>
        ⟨id, label, rfl, rfl, by rw [hchosen, heq]⟩, ?_⟩)
      rintro ⟨_, _, rfl, rfl, hchoose⟩
      exact Except.ok.inj (hchosen.symm.trans hchoose)
    · rcases List.mem_append.mp hmem with hmem | hmem
      · exact hdecided id' label' hmem
      · obtain ⟨rfl, rfl⟩ := Prod.mk.inj (List.mem_singleton.mp hmem)
        exact ⟨chosen, hchosen⟩
  refine hfold.mono fun aboard' _ ⟨haboard', hdecided⟩ =>
    ⟨haboard'.congr fun e k => or_congr_right ⟨?_, ?_⟩, ?_⟩
  · rintro ⟨id, label, hmem, hchoose⟩
    obtain ⟨hholds, hlabel, hlstop, hiteration⟩ := (hheld id label).mp hmem
    exact ⟨stop, id, label, hstop, hboards, hholds, hlstop, hlabel, hiteration, hchoose⟩
  · rintro ⟨stop', id, label, hstop', -, hholds, hlstop, hlabel, hiteration, hchoose⟩
    obtain rfl := Option.some.inj (hstop.symm.trans hstop')
    exact ⟨id, label, (hheld id label).mpr ⟨hholds, hlabel, hlstop, hiteration⟩, hchoose⟩
  · intro id label hboardable
    obtain rfl := Option.some.inj (hstop.symm.trans hboardable.stop)
    exact hdecided id label ((hheld id label).mpr
      ⟨hboardable.holds, hboardable.round, rfl, hboardable.iteration⟩)

theorem ridesOn_iff (hp : net.patterns[i]? = some p) (ht : net.timetables[i]? = some t)
    {l : Label} : c.RidesOn net s i l ↔ ∃ position, c.RidesTo s p t position l := by
  constructor
  · rintro ⟨p', t', position, hp', ht', hrides⟩
    obtain rfl := Option.some.inj (hp.symm.trans hp')
    obtain rfl := Option.some.inj (ht.symm.trans ht')
    exact ⟨position, hrides⟩
  · rintro ⟨position, hrides⟩
    exact ⟨p, t, position, hp, ht, hrides⟩

/-- No trip is boarded where there are none. -/
theorem BoardsAt.size_ne_zero (h : c.BoardsAt s p t position e k) (ht : t.Sound p.length) :
    t.size ≠ 0 := by
  obtain ⟨-, _, _, -, hchosen⟩ := h.chosen ht
  have := (Array.getElem?_eq_some_iff.mp hchosen.trip).1
  rw [Timetable.size]
  omega

/-- The visit of a position tries the labels at the end of the rides to it, and boards the trips
there. The trips on board were boarded at the positions that are done. -/
theorem yields_visit (hnet : course.network.Sound) (hc : c.Of course.network)
    (hd : course.direction = c.direction) (hs : s.Sound c.direction c.stopCount maxRounds)
    (hround : 1 ≤ s.round) (htried : c.Tried maxRounds kind s s₁) {first : Nat}
    (hp : course.network.patterns[i]? = some p) (ht : t.Sound p.length) (hstart : first < p.length)
    (hboard : ∀ {position e k}, c.BoardsAt s p t position e k →
      position ∈ c.direction.positionsFrom first p.length)
    {done rest : List Nat} {state : Labels}
    (hsplit : c.direction.positionsFrom first p.length = done ++ position :: rest)
    (hdone : c.Tried maxRounds (fun l => ∃ position ∈ done, c.RidesTo s p t position l) s₁ state)
    (haboard : c.Carries p t (fun e k => ∃ position ∈ done, c.BoardsAt s p t position e k)
      aboard) :
    Yields (visit (labelScheme c) course p (state, aboard) position) fun current =>
      c.Tried maxRounds (fun l => ∃ q ∈ done ++ [position], c.RidesTo s p t q l) s₁ current.1 ∧
      c.Carries p t (fun e k => ∃ q ∈ done ++ [position], c.BoardsAt s p t q e k) current.2 ∧
      c.DecidesAt s p t position := by
  have hmem : position ∈ c.direction.positionsFrom first p.length := by simp [hsplit]
  have hposition := ((Direction.mem_positionsFrom hstart).mp hmem).2
  -- the positions that are done are those before this one
  have hbefore : ∀ {board e k}, c.BoardsAt s p t board e k →
      (board ∈ done ↔ c.direction.precedes board position = true) := fun hboards =>
    Direction.mem_before_iff hsplit (hboard hboards)
  have hcarries : c.Carries p t (fun e k => ∃ board,
      c.direction.precedes board position = true ∧ c.BoardsAt s p t board e k) aboard :=
    haboard.congr fun e k => exists_congr fun board =>
      and_congr_left fun hboards => hbefore hboards
  have hall := htried.trans hdone
  refine JourneyPlanner.yields_visit hnet hp hposition
    (M := fun state' => c.Tried maxRounds (fun l => ∃ q ∈ done ++ [position],
      c.RidesTo s p t q l) s₁ state') ?_ ?_ ?_ ?_
  · intro stop hstop halights
    rw [hd] at halights
    refine (yields_alight hall ht hcarries hstop halights).mono fun state' _ hstate' => ?_
    exact (hdone.trans hstate').congr fun l => by simp [or_and_right, exists_or]
  · intro hnot
    rw [hd] at hnot
    refine hdone.congr fun l => ?_
    simp only [List.mem_append, List.mem_singleton, or_and_right, exists_or, exists_eq_left,
      iff_self_or]
    rintro ⟨_, _, _, _, -, halights, -⟩
    rw [hnot] at halights
    cases halights
  · intro stop state' hstop hstate' hboards _
    rw [hd] at hboards
    have hall' := htried.trans hstate'
    have hstop_lt : stop < c.stopCount := by
      rw [hc.stopCount_eq]
      exact hnet.stop_lt hp hstop
    have hround' : state'.round - 1 ≤ maxRounds := by
      have := hstate'.sound.round_le
      omega
    refine (hstate'.sound.yields_current hround' hstop_lt).bind fun arrivals _ harrivals => ?_
    refine (yields_boardings hs hall' hround ht haboard hstop hboards harrivals).mono
      fun aboard' _ ⟨haboard', hdecides⟩ => ⟨hstate', haboard'.congr fun e k => ?_, hdecides⟩
    simp [or_and_right, exists_or]
  · intro stop state' hstop hstate' hskip
    -- no label of the round before is at a stop that is passed
    have hpassed : ∀ {id label}, ¬c.Boardable s p position id label := by
      intro id label hboardable
      obtain rfl := Option.some.inj (hstop.symm.trans hboardable.stop)
      rcases hskip with hskip | hskip
      · rw [hd, hboardable.boards] at hskip
        cases hskip
      · have := hs.reached_of_previous hboardable.holds.1 hboardable.iteration hboardable.round
        change state'.reached.contains label.stop = false at hskip
        rw [hstate'.reached_eq, htried.reached_eq, this] at hskip
        cases hskip
    refine ⟨hstate', haboard.congr fun e k => ?_, fun _ _ hboardable =>
      absurd hboardable hpassed⟩
    simp only [List.mem_append, List.mem_singleton, or_and_right, exists_or, exists_eq_left,
      iff_self_or]
    intro hboards
    obtain ⟨id, label, hboardable⟩ := hboards.boardable
    exact absurd hboardable hpassed

/-- The ride along a pattern tries the labels at the end of all rides on it. After no label of the
round before may it be boarded before the first position of the plan. -/
theorem yields_ridePattern (hnet : course.network.Sound) (hc : c.Of course.network)
    (hd : course.direction = c.direction) (hs : s.Sound c.direction c.stopCount maxRounds)
    (hround : 1 ≤ s.round) (htried : c.Tried maxRounds kind s s₁) {start : PatternId × Nat}
    (hp : course.network.patterns[start.1]? = some p) (hstart : start.2 < p.length)
    (hfirst : ∀ position id label, c.Boardable s p position id label →
      c.direction.AtOrAfter start.2 position) :
    Yields (ridePattern (labelScheme c) course s₁ start) fun s₂ =>
      c.Tried maxRounds (c.RidesOn course.network s start.1) s₁ s₂ ∧
        c.DecidesOn course.network s start.1 := by
  obtain ⟨t, htimetable⟩ := hnet.exists_timetable hp
  have ht := hnet.timetable_sound hp htimetable
  have hboardable : ∀ {position id label}, c.Boardable s p position id label →
      position ∈ c.direction.positionsFrom start.2 p.length := fun hboardable =>
    (Direction.mem_positionsFrom hstart).mpr ⟨hfirst _ _ _ hboardable,
      (Array.getElem?_eq_some_iff.mp hboardable.stop).1⟩
  have hboard : ∀ {position e k}, c.BoardsAt s p t position e k →
      position ∈ c.direction.positionsFrom start.2 p.length := by
    intro position e k hboards
    obtain ⟨id, label, hboards⟩ := hboards.boardable
    exact hboardable hboards
  refine JourneyPlanner.yields_ridePattern hp htimetable
    (A := fun done state aboard =>
      c.Tried maxRounds (fun l => ∃ position ∈ done, c.RidesTo s p t position l) s₁ state ∧
      c.Carries p t (fun e k => ∃ position ∈ done, c.BoardsAt s p t position e k) aboard ∧
      ∀ position ∈ done, c.DecidesAt s p t position)
    (fun hnone => ⟨?_, ?_⟩) (fun _ => ?_) ?_ ?_
  · refine .none htried.sound ?_
    intro l hrides
    obtain ⟨_, _, _, _, _, -, -, -, hboards, -⟩ := (ridesOn_iff hp htimetable).mp hrides
    exact hboards.size_ne_zero ht hnone
  · intro p' t' position hp' ht' hsome
    obtain rfl := Option.some.inj (htimetable.symm.trans ht')
    exact absurd hnone hsome
  · refine (yields_enter hnet hc hp).mono ?_
    rintro _ - rfl
    exact ⟨.none htried.sound (by simp), ⟨rfl, rfl, by simp, by simp⟩, by simp⟩
  · rintro done position rest state aboard hsplit ⟨hdone, haboard, hdecided⟩
    rw [hd] at hsplit
    refine (yields_visit hnet hc hd hs hround htried hp ht hstart hboard hsplit hdone haboard).mono
      fun current _ ⟨hrides, hcarries, hdecides⟩ => ⟨hrides, hcarries, fun q hq => ?_⟩
    rcases List.mem_append.mp hq with hq | hq
    · exact hdecided q hq
    · obtain rfl := List.mem_singleton.mp hq
      exact hdecides
  · rintro state aboard ⟨hdone, -, hdecided⟩
    rw [hd] at hdone hdecided
    refine ⟨hdone.congr fun l => Iff.trans ⟨?_, ?_⟩ (ridesOn_iff hp htimetable).symm, ?_⟩
    · rintro ⟨position, -, hrides⟩
      exact ⟨position, hrides⟩
    · rintro ⟨position, hrides⟩
      obtain ⟨stop, board, e, k, hstop, -, hprecedes, hboards, -⟩ := id hrides
      refine ⟨position, (Direction.mem_positionsFrom hstart).mpr ⟨?_, ?_⟩, hrides⟩
      · exact ((Direction.mem_positionsFrom hstart).mp (hboard hboards)).1.trans
          (Direction.atOrAfter_of_precedes hprecedes)
      · exact (Array.getElem?_eq_some_iff.mp hstop).1
    · intro p' t' position hp' ht' _ id label hboards
      obtain rfl := Option.some.inj (hp.symm.trans hp')
      obtain rfl := Option.some.inj (htimetable.symm.trans ht')
      exact hdecided position (hboardable hboards) hboards

/-- The rides of a round try the labels at the end of all rides after labels of the round before. -/
theorem yields_transitRound (hnet : course.network.Sound) (hc : c.Of course.network)
    (hd : course.direction = c.direction) (hs : s.Sound c.direction c.stopCount maxRounds)
    (hround : 1 ≤ s.round) :
    Yields (transitRound (labelScheme c) course s (.empty course.network.patternCount))
      fun result =>
        (c.Tried maxRounds (fun l => ∃ i, c.RidesOn course.network s i l) s result.1 ∧
          ∀ i, c.DecidesOn course.network s i) ∧
          result.2 = .empty course.network.patternCount := by
  have hreached : ∀ stop, s.reached.contains stop = true → stop < course.network.stopCount := by
    intro stop hstop
    have := IndexSet.lt_of_contains hstop
    rw [hs.reached_size, hc.stopCount_eq] at this
    exact this
  have hreached' : ∀ stop, ((labelScheme c).reached s).contains stop = true →
      stop < course.network.stopCount := hreached
  have hmem {i position : Nat} :
      (i, position) ∈ ScanMarks.visitsAt course.network s.reached.toList ↔ _ :=
    ScanMarks.mem_visitsAt_toList hnet hreached
  -- where a pattern may be boarded, it is visited
  have hvisits : ∀ {i p position id label}, course.network.patterns[i]? = some p →
      c.Boardable s p position id label →
      (i, position) ∈ ScanMarks.visitsAt course.network s.reached.toList := fun hp hboards =>
    hmem.mpr ⟨_, _, hp, hboards.stop,
      hs.reached_of_previous hboards.holds.1 hboards.iteration hboards.round⟩
  refine JourneyPlanner.yields_transitRound hnet rfl hreached'
    (A := fun done state => c.Tried maxRounds
      (fun l => ∃ start ∈ done, c.RidesOn course.network s start.1 l) s state ∧
      ∀ start ∈ done, c.DecidesOn course.network s start.1)
    (Q := fun state => c.Tried maxRounds (fun l => ∃ i, c.RidesOn course.network s i l) s state ∧
      ∀ i, c.DecidesOn course.network s i)
    ⟨.none hs (by simp), by simp⟩ ?_ ?_
  · rintro plan done start rest state hplan hsplit ⟨hdone, hdecided⟩
    obtain ⟨hvisit, hfirst⟩ := hplan.mem_iff.mp (show (start.1, start.2) ∈ plan by simp [hsplit])
    obtain ⟨p, stop, hp, hstop, -⟩ := hmem.mp hvisit
    have hstart := (Array.getElem?_eq_some_iff.mp hstop).1
    refine (yields_ridePattern hnet hc hd hs hround hdone hp hstart
      fun position id label hboards => ?_).mono fun state' _ ⟨hstate', hdecides⟩ => ⟨?_, ?_⟩
    · rw [← hd]
      exact hfirst position (hvisits hp hboards)
    · exact (hdone.trans hstate').congr fun l => by simp [or_and_right, exists_or]
    · intro start' hstart'
      rcases List.mem_append.mp hstart' with hstart' | hstart'
      · exact hdecided start' hstart'
      · obtain rfl := List.mem_singleton.mp hstart'
        exact hdecides
  · rintro plan state hplan ⟨hstate, hdecided⟩
    -- a pattern that may be boarded is one of the plan
    have hplanned : ∀ {i p position id label}, course.network.patterns[i]? = some p →
        c.Boardable s p position id label → ∃ first, (i, first) ∈ plan := fun hp hboards =>
      hplan.exists_mem (hvisits hp hboards)
    refine ⟨hstate.congr fun l => ⟨fun ⟨start, _, hrides⟩ => ⟨start.1, hrides⟩, ?_⟩, ?_⟩
    · rintro ⟨i, hrides⟩
      obtain ⟨p, t, position, hp, -, stop, board, e, k, -, -, -, hboards, -⟩ := id hrides
      obtain ⟨id, label, hboards⟩ := hboards.boardable
      obtain ⟨first, hfirst⟩ := hplanned hp hboards
      exact ⟨(i, first), hfirst, hrides⟩
    · intro i p t position hp ht hsome id label hboards
      obtain ⟨first, hfirst⟩ := hplanned hp hboards
      exact hdecided (i, first) hfirst hp ht hsome hboards

end LabelScene

end JourneyPlanner
