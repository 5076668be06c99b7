import JourneyPlanner.Proofs.Search.Tables

/-!
# What a round rides

The stops that were touched in the round before decide which patterns a round rides, which positions
it visits on them and where it alights and boards. None of this depends on what a search keeps of
the places reached, as long as alighting leaves the touched stops as they are: a round is a list of
scans, fixed beforehand, that any search performs one after the other.

* `ScanStep`: leaving the trips on board, and boarding after all arrivals at a stop.
* `Scan`: the positions that are visited on a pattern.
* `Scan.Sweeps`: they are those from the first touched position on, in the order of the direction,
  and so are the steps there.
* `IsRound`: the scans of a round are those of the patterns with trips through touched stops.
* `Scheme.Steady.ridePlan_eq`: riding the patterns of a plan is performing its scans.
-/

namespace JourneyPlanner

/-! ### Loops -/

section

variable {α β σ τ : Type}

/-- A loop over the elements of lists is a loop of loops. -/
theorem foldlM_flatMap {f : α → List β} {g : σ → β → Checked σ} {xs : List α} {s : σ} :
    (xs.flatMap f).foldlM g s = xs.foldlM (fun s a => (f a).foldlM g s) s := by
  induction xs generalizing s with
  | nil => rfl
  | cons a xs ih => simp only [List.flatMap_cons, List.foldlM_append, List.foldlM_cons, ih]

/-- A loop on a larger state is the loop on the state if each of its turns is. -/
theorem foldlM_hom (lift : σ → τ) {f : σ → α → Checked σ} {g : τ → α → Checked τ}
    (h : ∀ s a, g (lift s) a = lift <$> f s a) (xs : List α) (s : σ) :
    xs.foldlM g (lift s) = lift <$> xs.foldlM f s := by
  induction xs generalizing s with
  | nil => rfl
  | cons a xs ih => simp only [List.foldlM_cons, map_bind, h, bind_map_left, ih]

theorem foldlM_ne_overflow {f : σ → α → Checked σ} (hf : ∀ s a, f s a ≠ .error .overflow)
    {xs : List α} {s : σ} : xs.foldlM f s ≠ .error .overflow := by
  induction xs generalizing s with
  | nil => exact pure_ne_overflow
  | cons a xs ih => exact bind_ne_overflow (hf s a) fun _ => ih

theorem map_ite (f : α → β) (c : Prop) [Decidable c] (x y : Checked α) :
    f <$> (if c then x else y) = if c then f <$> x else f <$> y :=
  apply_ite (f <$> ·) c x y

end

/-! ### Steps -/

/-- What a search does at a position of a pattern. -/
inductive ScanStep where
  /-- leave the trips on board -/
  | alight (stop : StopId) (position : Nat)
  /-- board trips, after every arrival at the stop -/
  | board (stop : StopId) (position : Nat)
deriving DecidableEq, Repr

namespace ScanStep

def position : ScanStep → Nat
  | alight _ position | board _ position => position

/-- The order of steps: that of their positions, and alighting before boarding at the same one. -/
inductive Precedes (d : Direction) : ScanStep → ScanStep → Prop
  | onward {step later : ScanStep} (h : d.precedes step.position later.position = true) :
    Precedes d step later
  | sameStop (stop : StopId) (position : Nat) :
    Precedes d (.alight stop position) (.board stop position)

def perform {σ κ ι : Type} (scheme : Scheme σ κ ι) (current : σ × κ) :
    ScanStep → Checked (σ × κ)
  | alight stop position => do
    let state ← scheme.alight current.2 stop position current.1
    return (state, current.2)
  | board stop position => do
    let arrivals ← scheme.boardable current.1 stop
    let onBoard ← arrivals.foldlM
      (fun onBoard arrival => scheme.board current.1 arrival stop position onBoard) current.2
    return (current.1, onBoard)

end ScanStep

/-! ### Positions -/

namespace Pattern

/-- A position at a stop that was touched. -/
def Touches (p : Pattern) (touched : IndexSet) (position : Nat) : Prop :=
  ∃ stop, p.stops[position]? = some stop ∧ touched.contains stop = true

/-- The steps at a position: trips are left where that is allowed, and boarded where that is
allowed and the stop was touched. -/
def stepsAt (p : Pattern) (d : Direction) (touched : IndexSet) (position : Nat) :
    List ScanStep :=
  match p.stops[position]? with
  | none => []
  | some stop =>
    (if d.canAlight p position = .ok true then [.alight stop position] else []) ++
      if d.canBoard p position = .ok true ∧ touched.contains stop = true then
        [.board stop position]
      else []

def stepsOver (p : Pattern) (d : Direction) (touched : IndexSet) (positions : List Nat) :
    List ScanStep :=
  positions.flatMap (p.stepsAt d touched)

variable {p : Pattern} {d : Direction} {touched : IndexSet} {position q : Nat} {stop : StopId}
  {positions : List Nat}

/-- Trips are left at a position where its stop and the pattern allow it. -/
theorem alight_mem_stepsAt : .alight stop q ∈ p.stepsAt d touched position ↔
    q = position ∧ p.stops[q]? = some stop ∧ d.canAlight p q = .ok true := by
  unfold stepsAt
  split <;> grind

theorem board_mem_stepsAt : .board stop q ∈ p.stepsAt d touched position ↔
    q = position ∧ p.stops[q]? = some stop ∧ touched.contains stop = true ∧
      d.canBoard p q = .ok true := by
  unfold stepsAt
  split <;> grind

theorem position_of_mem_stepsAt {step : ScanStep} (h : step ∈ p.stepsAt d touched position) :
    step.position = position := by
  cases step with
  | alight stop q => exact (alight_mem_stepsAt.mp h).1
  | board stop q => exact (board_mem_stepsAt.mp h).1

/-- At a position trips are left before they are boarded. -/
theorem stepsAt_ordered (p : Pattern) (d : Direction) (touched : IndexSet) (position : Nat) :
    (p.stepsAt d touched position).Pairwise (ScanStep.Precedes d) := by
  unfold stepsAt
  split
  · exact .nil
  case h_2 stop _ =>
    rw [List.pairwise_append]
    refine ⟨by split <;> simp, by split <;> simp, ?_⟩
    intro step hstep later hlater
    obtain ⟨-, rfl⟩ : d.canAlight p position = .ok true ∧ step = .alight stop position := by
      simpa using hstep
    obtain ⟨-, rfl⟩ : (d.canBoard p position = .ok true ∧ touched.contains stop = true) ∧
        later = .board stop position := by
      simpa using hlater
    exact .sameStop stop position

/-- Along positions in the order of a direction the steps follow each other in this order. -/
theorem stepsOver_ordered (h : positions.Pairwise fun p q => d.precedes p q = true) :
    (p.stepsOver d touched positions).Pairwise (ScanStep.Precedes d) := by
  refine List.pairwise_flatMap.mpr ⟨fun position _ => p.stepsAt_ordered d touched position, ?_⟩
  refine h.imp fun hprecedes step hstep later hlater => .onward ?_
  rwa [position_of_mem_stepsAt hstep, position_of_mem_stepsAt hlater]

theorem alight_mem_stepsOver : .alight stop q ∈ p.stepsOver d touched positions ↔
    q ∈ positions ∧ p.stops[q]? = some stop ∧ d.canAlight p q = .ok true := by
  simp only [stepsOver, List.mem_flatMap, alight_mem_stepsAt]
  grind

theorem board_mem_stepsOver : .board stop q ∈ p.stepsOver d touched positions ↔
    q ∈ positions ∧ p.stops[q]? = some stop ∧ touched.contains stop = true ∧
      d.canBoard p q = .ok true := by
  simp only [stepsOver, List.mem_flatMap, board_mem_stepsAt]
  grind

end Pattern

/-! ### Scans -/

/-- A ride along a pattern, and the positions that it visits. -/
structure Scan where
  pattern : PatternId
  positions : List Nat
deriving DecidableEq, Repr

namespace Scan

/-- Ride a pattern in a search: nothing is on board at first, and then the steps at the positions
visited follow each other. -/
def perform {σ κ ι : Type} (scheme : Scheme σ κ ι) (net : Network) (d : Direction)
    (touched : IndexSet) (state : σ) (scan : Scan) : Checked σ := do
  let p ← net.pattern scan.pattern
  let onBoard ← scheme.enter p (← net.timetable scan.pattern)
  let (state, _) ← (p.stepsOver d touched scan.positions).foldlM (ScanStep.perform scheme)
    (state, onBoard)
  return state

/-- A scan goes from the first touched position of its pattern to the end. -/
structure Sweeps (scan : Scan) (p : Pattern) (d : Direction) (touched : IndexSet) : Prop where
  /-- no position is visited twice, and the order is that of the direction -/
  ordered : scan.positions.Pairwise fun position later => d.precedes position later = true
  /-- visited is every position that is touched or comes after a touched one -/
  mem_positions : ∀ position, position ∈ scan.positions ↔
    position < p.length ∧ ∃ first, p.Touches touched first ∧ d.AtOrAfter first position
  /-- the steps are made along the pattern, and a trip is not left where it was boarded -/
  steps_ordered : (p.stepsOver d touched scan.positions).Pairwise (ScanStep.Precedes d)
  /-- trips are left wherever that is allowed -/
  mem_alight : ∀ stop position, .alight stop position ∈ p.stepsOver d touched scan.positions ↔
    position ∈ scan.positions ∧ p.stops[position]? = some stop ∧
      d.canAlight p position = .ok true
  /-- trips are boarded at every touched position where that is allowed, and nowhere else -/
  mem_board : ∀ stop position, .board stop position ∈ p.stepsOver d touched scan.positions ↔
    p.stops[position]? = some stop ∧ touched.contains stop = true ∧
      d.canBoard p position = .ok true
  /-- trips are boarded after all alightings up to there, and before all further ones -/
  offered : ∀ stop position, p.stops[position]? = some stop → touched.contains stop = true →
    d.canBoard p position = .ok true →
    ∃ before after, p.stepsOver d touched scan.positions =
        before ++ .board stop position :: after ∧
      ∀ other q, .alight other q ∈ p.stepsOver d touched scan.positions →
        (.alight other q ∈ before ↔ d.AtOrAfter q position)

end Scan

/-- A pattern that a round rides: one with a trip, through a touched stop. -/
def Network.Rides (net : Network) (touched : IndexSet) (pattern : PatternId) : Prop :=
  ∃ p t, net.patterns[pattern]? = some p ∧ net.timetables[pattern]? = some t ∧ t.size ≠ 0 ∧
    ∃ position, p.Touches touched position

/-- The scans of a round after some stops were touched. -/
structure IsRound (net : Network) (d : Direction) (touched : IndexSet) (scans : List Scan) :
    Prop where
  /-- no pattern is ridden twice -/
  nodup : (scans.map (·.pattern)).Nodup
  /-- those with a trip through a touched stop are ridden, and no others -/
  mem_iff : ∀ pattern, pattern ∈ scans.map (·.pattern) ↔ net.Rides touched pattern
  sweeps : ∀ scan ∈ scans, ∀ p, net.patterns[scan.pattern]? = some p → scan.Sweeps p d touched

/-! ### The scans of a plan -/

/-- The scan of a pattern from a position on. There is none of a pattern without trips. -/
def Network.scan? (net : Network) (d : Direction) (start : PatternId × Nat) : Option Scan := do
  let p ← net.patterns[start.1]?
  let t ← net.timetables[start.1]?
  if t.size = 0 then none else some ⟨start.1, d.positionsFrom start.2 p.length⟩

section

variable {net : Network} {d : Direction} {touched : IndexSet} {p : Pattern} {first : Nat}
  {scan : Scan} {start : PatternId × Nat}

theorem Network.scan?_eq_some : net.scan? d start = some scan ↔
    ∃ p t, net.patterns[start.1]? = some p ∧ net.timetables[start.1]? = some t ∧ t.size ≠ 0 ∧
      scan = ⟨start.1, d.positionsFrom start.2 p.length⟩ := by
  simp only [Network.scan?, Option.bind_eq_bind, Option.bind_eq_some_iff]
  constructor
  · rintro ⟨p, hp, t, ht, h⟩
    split at h
    · cases h
    case isFalse hsome => exact ⟨p, t, hp, ht, hsome, (Option.some.inj h).symm⟩
  · rintro ⟨p, t, hp, ht, hsome, rfl⟩
    exact ⟨p, hp, t, ht, if_neg hsome⟩

/-- A boarding step divides the steps of a scan: those before it are made at positions that are not
after its own. -/
theorem exists_divided {steps : List ScanStep} (hordered : steps.Pairwise (ScanStep.Precedes d))
    {stop : StopId} {position : Nat} (hmem : .board stop position ∈ steps) :
    ∃ before after, steps = before ++ .board stop position :: after ∧
      ∀ other q, .alight other q ∈ steps →
        (.alight other q ∈ before ↔ d.AtOrAfter q position) := by
  obtain ⟨before, after, rfl⟩ := List.append_of_mem hmem
  refine ⟨before, after, rfl, fun other q hstep => ?_⟩
  rw [List.pairwise_append, List.pairwise_cons] at hordered
  obtain ⟨-, ⟨hafter, -⟩, hbefore⟩ := hordered
  constructor
  · intro hstep
    cases hbefore _ hstep _ List.mem_cons_self with
    | onward h => exact Direction.atOrAfter_of_precedes h
    | sameStop => exact .refl
  · intro hnotAfter
    rcases List.mem_append.mp hstep with hstep | hstep
    · exact hstep
    rcases List.mem_cons.mp hstep with heq | hstep
    · cases heq
    · cases hafter _ hstep with
      | onward h => exact absurd h (Bool.eq_false_iff.mp hnotAfter)

/-- The positions from the first touched one on are a sweep. -/
theorem sweeps_positionsFrom {pattern : PatternId} (hfirst : p.Touches touched first)
    (hbefore : ∀ position, p.Touches touched position → d.AtOrAfter first position) :
    Scan.Sweeps ⟨pattern, d.positionsFrom first p.length⟩ p d touched := by
  have hlt : first < p.length := by
    obtain ⟨stop, hstop, -⟩ := hfirst
    exact (Array.getElem?_eq_some_iff.mp hstop).1
  have hpositions : ∀ position, position ∈ d.positionsFrom first p.length ↔
      position < p.length ∧ ∃ first, p.Touches touched first ∧ d.AtOrAfter first position := by
    intro position
    rw [Direction.mem_positionsFrom hlt]
    constructor
    · rintro ⟨hafter, hposition⟩
      exact ⟨hposition, first, hfirst, hafter⟩
    · rintro ⟨hposition, other, hother, hafter⟩
      exact ⟨(hbefore other hother).trans hafter, hposition⟩
  have hordered := d.positionsFrom_pairwise first p.length
  have hsteps : (p.stepsOver d touched (d.positionsFrom first p.length)).Pairwise
      (ScanStep.Precedes d) := Pattern.stepsOver_ordered hordered
  have hboard : ∀ stop position,
      .board stop position ∈ p.stepsOver d touched (d.positionsFrom first p.length) ↔
        p.stops[position]? = some stop ∧ touched.contains stop = true ∧
          d.canBoard p position = .ok true := by
    intro stop position
    rw [Pattern.board_mem_stepsOver, and_iff_right_iff_imp]
    rintro ⟨hstop, htouched, -⟩
    rw [hpositions]
    exact ⟨(Array.getElem?_eq_some_iff.mp hstop).1, position, ⟨stop, hstop, htouched⟩, .refl⟩
  constructor
  case ordered => exact hordered
  case mem_positions => exact hpositions
  case steps_ordered => exact hsteps
  case mem_alight => exact fun stop position => Pattern.alight_mem_stepsOver
  case mem_board => exact hboard
  case offered =>
    intro stop position hstop htouched hcanBoard
    exact exists_divided hsteps ((hboard stop position).mpr ⟨hstop, htouched, hcanBoard⟩)

/-- The visits of a round are the touched positions. -/
theorem mem_visitsAt_touched (hnet : net.Sound)
    (htouched : ∀ stop, touched.contains stop = true → stop < net.stopCount) {i position : Nat} :
    (i, position) ∈ ScanMarks.visitsAt net touched.toList ↔
      ∃ p, net.patterns[i]? = some p ∧ p.Touches touched position := by
  simp only [ScanMarks.mem_visitsAt_toList hnet htouched, Pattern.Touches, exists_and_left]

/-- No pattern is in the plan of some marks twice. -/
theorem ScanMarks.Records.plan_nodup {count : Nat} {marks : ScanMarks}
    {visits : List (PatternId × Nat)} (h : marks.Records d count visits) :
    marks.plan.Pairwise fun start other => start.1 ≠ other.1 := by
  refine List.pairwise_filterMap.mpr (h.nodup.imp ?_)
  intro pattern other hne start hstart start' hstart'
  obtain ⟨first, -, rfl⟩ := Option.map_eq_some_iff.mp hstart
  obtain ⟨first', -, rfl⟩ := Option.map_eq_some_iff.mp hstart'
  exact hne

/-- The scans of the plan for the touched stops are those of a round. -/
theorem ScanMarks.Records.isRound (hnet : net.Sound)
    (htouched : ∀ stop, touched.contains stop = true → stop < net.stopCount) {marks : ScanMarks}
    (h : marks.Records d net.patternCount (visitsAt net touched.toList)) :
    IsRound net d touched (marks.plan.filterMap (net.scan? d)) := by
  have hplan : ∀ {pattern first}, (pattern, first) ∈ marks.plan ↔
      (∃ p, net.patterns[pattern]? = some p ∧ p.Touches touched first) ∧
        ∀ position, (∃ p, net.patterns[pattern]? = some p ∧ p.Touches touched position) →
          d.AtOrAfter first position := by
    intro pattern first
    simp only [h.mem_plan, mem_visitsAt_touched hnet htouched]
  constructor
  case nodup =>
    refine List.pairwise_map.mpr (List.pairwise_filterMap.mpr (h.plan_nodup.imp ?_))
    intro start other hne scan hscan scan' hscan'
    obtain ⟨_, _, -, -, -, rfl⟩ := Network.scan?_eq_some.mp hscan
    obtain ⟨_, _, -, -, -, rfl⟩ := Network.scan?_eq_some.mp hscan'
    exact hne
  case mem_iff =>
    intro pattern
    simp only [List.mem_map, List.mem_filterMap, Network.scan?_eq_some]
    constructor
    · rintro ⟨_, ⟨⟨pattern, first⟩, hstart, p, t, hp, ht, hsome, rfl⟩, rfl⟩
      obtain ⟨p', hp', hfirst⟩ := (hplan.mp hstart).1
      obtain rfl := Option.some.inj (hp.symm.trans hp')
      exact ⟨p, t, hp, ht, hsome, first, hfirst⟩
    · rintro ⟨p, t, hp, ht, hsome, position, htouches⟩
      obtain ⟨first, hstart⟩ :=
        h.exists_mem_plan ((mem_visitsAt_touched hnet htouched).mpr ⟨p, hp, htouches⟩)
      exact ⟨_, ⟨(pattern, first), hstart, p, t, hp, ht, hsome, rfl⟩, rfl⟩
  case sweeps =>
    intro scan hscan p hp
    obtain ⟨⟨pattern, first⟩, hstart, hscan⟩ := List.mem_filterMap.mp hscan
    obtain ⟨p', t, hp', -, -, rfl⟩ := Network.scan?_eq_some.mp hscan
    obtain rfl := Option.some.inj (hp.symm.trans hp')
    obtain ⟨⟨p', hp', hfirst⟩, hbefore⟩ := hplan.mp hstart
    obtain rfl := Option.some.inj (hp.symm.trans hp')
    exact sweeps_positionsFrom hfirst fun position htouches => hbefore position ⟨p, hp, htouches⟩

end

/-! ### Searches that ride by scans -/

/-- Alighting leaves the stops that were reached in the round before as they are. -/
def Scheme.Steady {σ κ ι : Type} (scheme : Scheme σ κ ι) : Prop :=
  ∀ {onBoard stop position s s'}, scheme.alight onBoard stop position s = .ok s' →
    scheme.reached s' = scheme.reached s

section

variable {σ κ ι : Type} {scheme : Scheme σ κ ι} {course : Course} {touched : IndexSet}

theorem Scheme.Steady.perform_step (hsteady : scheme.Steady) {current next : σ × κ}
    {step : ScanStep} (h : step.perform scheme current = .ok next) :
    scheme.reached next.1 = scheme.reached current.1 := by
  cases step with
  | alight stop position =>
    obtain ⟨s, halight, h⟩ := bind_eq_ok.mp h
    cases h
    exact hsteady halight
  | board stop position =>
    obtain ⟨arrivals, -, h⟩ := bind_eq_ok.mp h
    obtain ⟨onBoard, -, h⟩ := bind_eq_ok.mp h
    cases h
    rfl

/-- The stops reached in the round before are the same after any number of steps. -/
theorem Scheme.Steady.perform_steps (hsteady : scheme.Steady) {steps : List ScanStep}
    {current next : σ × κ} (h : steps.foldlM (ScanStep.perform scheme) current = .ok next) :
    scheme.reached next.1 = scheme.reached current.1 := by
  apply foldlM_keeps (I := fun next => scheme.reached next.1 = scheme.reached current.1) rfl _ h
  intro before step _ hbefore after hstep
  exact (hsteady.perform_step hstep).trans hbefore

theorem Scheme.Steady.perform_scan (hsteady : scheme.Steady) {net : Network} {d : Direction}
    {scan : Scan} {s s' : σ} (h : scan.perform scheme net d touched s = .ok s') :
    scheme.reached s' = scheme.reached s := by
  obtain ⟨p, -, h⟩ := bind_eq_ok.mp h
  obtain ⟨t, -, h⟩ := bind_eq_ok.mp h
  obtain ⟨onBoard, -, h⟩ := bind_eq_ok.mp h
  obtain ⟨current, hsteps, h⟩ := bind_eq_ok.mp h
  cases h
  exact hsteady.perform_steps hsteps

/-- To visit a position is to make the steps there. -/
theorem Scheme.Steady.visit_eq (hsteady : scheme.Steady) (hnet : course.network.Sound) {i : Nat}
    {p : Pattern} (hp : course.network.patterns[i]? = some p) {position : Nat}
    (hposition : position < p.length) {current : σ × κ}
    (hreached : scheme.reached current.1 = touched) :
    visit scheme course p current position =
      (p.stepsAt course.direction touched position).foldlM (ScanStep.perform scheme) current := by
  obtain ⟨state, onBoard⟩ := current
  obtain ⟨alights, halights⟩ := hnet.exists_canAlight hp hposition course.direction
  obtain ⟨boards, hboards⟩ := hnet.exists_canBoard hp hposition course.direction
  have hstop : p.stops[position]? = some p.stops[position] := Array.getElem?_eq_getElem hposition
  -- boarding asks the state which stops were touched, and that is after alighting
  have hboard : ∀ state, scheme.reached state = touched →
      (if (boards && (scheme.reached state).contains p.stops[position]) = true then do
        let arrivals ← scheme.boardable state p.stops[position]
        let onBoard ← arrivals.foldlM
          (fun onBoard arrival => scheme.board state arrival p.stops[position] position onBoard)
          onBoard
        return (state, onBoard)
      else return (state, onBoard)) =
      (if (.ok boards : Checked Bool) = .ok true ∧ touched.contains p.stops[position] = true then
        [ScanStep.board p.stops[position] position] else []).foldlM (ScanStep.perform scheme)
        (state, onBoard) := by
    rintro state rfl
    simp only [Bool.and_eq_true, Except.ok.injEq]
    split
    · simp [ScanStep.perform]
    · rfl
  rw [visit, Pattern.stopAt, fetch_of_getElem? hstop, Pattern.stepsAt, hstop, halights, hboards]
  cases alights with
  | false => exact hboard state hreached
  | true =>
    show (scheme.alight onBoard p.stops[position] position state >>= _) = _
    rw [List.foldlM_append, if_pos rfl, List.foldlM_cons]
    cases halight : scheme.alight onBoard p.stops[position] position state with
    | error fault => simp [ScanStep.perform, halight, bind, Except.bind]
    | ok state' =>
      have hleave : ScanStep.perform scheme (state, onBoard)
          (.alight p.stops[position] position) = .ok (state', onBoard) := by
        simp [ScanStep.perform, halight, bind, Except.bind, pure, Except.pure]
      rw [hleave]
      exact hboard state' ((hsteady halight).trans hreached)

/-- To visit the positions from one on is to make the steps there one after the other. -/
theorem Scheme.Steady.visits_eq (hsteady : scheme.Steady) (hnet : course.network.Sound) {i : Nat}
    {p : Pattern} (hp : course.network.patterns[i]? = some p) {first : Nat}
    (hfirst : first < p.length) {current : σ × κ} (hreached : scheme.reached current.1 = touched) :
    (course.direction.positionsFrom first p.length).foldlM (visit scheme course p) current =
      (p.stepsOver course.direction touched
        (course.direction.positionsFrom first p.length)).foldlM (ScanStep.perform scheme)
        current := by
  rw [Pattern.stepsOver, foldlM_flatMap]
  -- the touched stops are the same at every position
  apply (Same.foldlM (I := fun current => scheme.reached current.1 = touched) hreached _).eq
  intro current position hposition hcurrent
  have hinside := ((Direction.mem_positionsFrom hfirst).mp hposition).2
  constructor
  · exact hsteady.visit_eq hnet hp hinside hcurrent
  · exact fun next hnext => (hsteady.perform_steps hnext).trans hcurrent

/-- To ride a pattern is to perform its scan. -/
theorem Scheme.Steady.ridePattern_eq (hsteady : scheme.Steady) (hnet : course.network.Sound)
    {start : PatternId × Nat} {scan : Scan}
    (hscan : course.network.scan? course.direction start = some scan)
    (hfirst : ∃ p, course.network.patterns[start.1]? = some p ∧ start.2 < p.length) {state : σ}
    (hreached : scheme.reached state = touched) :
    ridePattern scheme course state start =
      scan.perform scheme course.network course.direction touched state := by
  obtain ⟨p, t, hp, ht, hsome, rfl⟩ := Network.scan?_eq_some.mp hscan
  obtain ⟨p', hp', hlt⟩ := hfirst
  obtain rfl := Option.some.inj (hp.symm.trans hp')
  simp only [ridePattern, Scan.perform, Network.pattern, Network.timetable,
    fetch_of_getElem? hp, fetch_of_getElem? ht]
  show (if t.size = 0 then _ else (do
      let onBoard ← scheme.enter p t
      let (state, _) ← (course.direction.positionsFrom start.2 p.length).foldlM
        (visit scheme course p) (state, onBoard)
      return state)) = _
  simp only [if_neg hsome, fun onBoard : κ =>
    hsteady.visits_eq hnet hp hlt (show scheme.reached (state, onBoard).1 = touched from hreached)]
  rfl

/-- To ride the patterns of a plan is to perform its scans. A pattern without trips is left
alone. -/
theorem Scheme.Steady.ridePlan_eq (hsteady : scheme.Steady) (hnet : course.network.Sound)
    {plan : List (PatternId × Nat)}
    (hplan : ∀ start ∈ plan, ∃ p, course.network.patterns[start.1]? = some p ∧
      start.2 < p.length) {state : σ} (hreached : scheme.reached state = touched) :
    plan.foldlM (ridePattern scheme course) state =
      (plan.filterMap (course.network.scan? course.direction)).foldlM
        (Scan.perform scheme course.network course.direction touched) state := by
  rw [List.foldlM_filterMap]
  -- the touched stops are the same from ride to ride
  apply (Same.foldlM (I := fun state => scheme.reached state = touched) hreached _).eq
  intro state start hstart hstate
  cases hscan : course.network.scan? course.direction start with
  | some scan =>
    constructor
    · exact hsteady.ridePattern_eq hnet hscan (hplan start hstart) hstate
    · exact fun next hnext => (hsteady.perform_scan hnext).trans hstate
  | none =>
    obtain ⟨p, hp, -⟩ := hplan start hstart
    obtain ⟨t, ht⟩ := hnet.exists_timetable hp
    have hnone : t.size = 0 := by
      by_contra hsome
      cases hscan.symm.trans (Network.scan?_eq_some.mpr ⟨p, t, hp, ht, hsome, rfl⟩)
    constructor
    · simp only [ridePattern, Network.pattern, Network.timetable, fetch_of_getElem? hp,
        fetch_of_getElem? ht]
      exact if_pos hnone
    · intro next hnext
      cases hnext
      exact hstate

end

/-! ### Both searches -/

/-- Leaving trips marks stops for the next round only. -/
theorem labelScheme_steady (c : LabelScene) : (labelScheme c).Steady := by
  intro aboard stop position s s' halight
  refine foldlM_keeps (I := fun next => next.reached = s.reached) rfl ?_ halight
  intro before boarded _ hbefore after hleave
  obtain ⟨time, cost, ride, -, harrive⟩ := LabelScene.exists_arrive_of_alightTrip hleave
  rcases LabelScene.eq_or_register_of_arrive harrive with rfl | ⟨-, rfl⟩
  · exact hbefore
  · exact hbefore

theorem boundScheme_steady (c : BoundScene) : (boundScheme c).Steady := by
  intro ride stop position s s' halight
  have harrive : ∀ duration cost, (s.arrive stop duration cost true).reached = s.reached := by
    intro duration cost
    have harrives := s.arrives stop duration cost true
    generalize s.arrive stop duration cost true = s' at harrives ⊢
    cases harrives <;> rfl
  rcases BoundScene.eq_or_arrive_of_alight halight with rfl | ⟨duration, cost, rfl⟩
  · rfl
  · exact harrive duration cost

end JourneyPlanner
