import JourneyPlanner.Proofs.Search.RoundCount
import JourneyPlanner.Proofs.Search.Scans

/-!
# The scratch of a round

The memory in which a round notes the patterns to ride, and the arrivals after which to board, is
used again by the next round. A mark is taken away when its pattern is ridden, whether or not it has
trips, the queue is emptied at the end of the round, and the buffer for arrivals after every
boarding. So a round that finds its scratch empty leaves it empty, and what it does is what it would
do with new scratch.

* `Scratch`, `transitRoundIn`: a round that uses scratch again.
* `transitRoundIn_empty`: it is the round of a search, and leaves nothing in the scratch.
* `runWith_empty`: scratch that every round finds and leaves empty is of no effect on a run.
* `transitRound_scans`: a round performs one scan of every pattern with trips through a touched
  stop, and leaves nothing behind.
-/

namespace JourneyPlanner

section

variable {σ κ ι : Type} (scheme : Scheme σ κ ι) (course : Course)

/-! ### Rounds with scratch -/

/-- What a search keeps between its rounds only in order to use the memory again. -/
structure Scratch (ι : Type) where
  marks : ScanMarks
  /-- the arrivals after which to board at a position -/
  arrivals : List ι

/-- Scratch that nothing is noted in, for a number of patterns. -/
def Scratch.empty (count : Nat) : Scratch ι := ⟨.empty count, []⟩

/-- Board after every arrival in a buffer, and take each of them out of it. -/
def drain (board : κ → ι → Checked κ) : List ι → κ → Checked (κ × List ι)
  | [], onBoard => pure (onBoard, [])
  | arrival :: rest, onBoard => do
    let onBoard ← board onBoard arrival
    drain board rest onBoard

/-- Visit a position of a pattern. The arrivals at its stop are put behind those in the buffer. -/
def visitIn (p : Pattern) (current : (σ × κ) × List ι) (position : Nat) :
    Checked ((σ × κ) × List ι) := do
  let ((state, onBoard), buffer) := current
  let stop ← p.stopAt position
  let state ←
    if ← course.direction.canAlight p position then scheme.alight onBoard stop position state
    else pure state
  let boards ← course.direction.canBoard p position
  if boards && (scheme.reached state).contains stop then
    let arrivals ← scheme.boardable state stop
    let (onBoard, buffer) ←
      drain (fun onBoard arrival => scheme.board state arrival stop position onBoard)
        (buffer ++ arrivals) onBoard
    return ((state, onBoard), buffer)
  else return ((state, onBoard), buffer)

/-- Take the mark of a pattern away, and ride the pattern from there if it had one. -/
def ridePatternIn (current : σ × Scratch ι) (pattern : PatternId) :
    Checked (σ × Scratch ι) := do
  let (state, ⟨⟨first, queue⟩, buffer⟩) := current
  let entry ← fetch first pattern
  let marks : ScanMarks := ⟨first.setIfInBounds pattern none, queue⟩
  match entry with
  | none => return (state, ⟨marks, buffer⟩)
  | some start =>
    let p ← course.network.pattern pattern
    let t ← course.network.timetable pattern
    if t.size = 0 then return (state, ⟨marks, buffer⟩)
    let onBoard ← scheme.enter p t
    let positions := course.direction.positionsFrom start p.length
    let ((state, _), buffer) ←
      positions.foldlM (visitIn scheme course p) ((state, onBoard), buffer)
    return (state, ⟨marks, buffer⟩)

/-- Ride all patterns through the stops reached in the round before. The queue is set aside while
its patterns are ridden, and emptied afterwards. -/
def transitRoundIn (state : σ) (scratch : Scratch ι) : Checked (σ × Scratch ι) := do
  let stops := (scheme.reached state).toList
  let marks ← scratch.marks.markStops course.network course.direction stops
  let (state, ⟨⟨first, _⟩, buffer⟩) ← marks.queue.toList.foldlM (ridePatternIn scheme course)
    (state, ⟨⟨marks.first, #[]⟩, scratch.arrivals⟩)
  return (state, ⟨⟨first, #[]⟩, buffer⟩)

end

/-! ### Rounds that start with empty scratch -/

/-- Marking records some visits, if it has a result. -/
theorem ScanMarks.Records.exists_of_mark {d : Direction} {count : Nat} {marks marks' : ScanMarks}
    {visit : PatternId × Nat} (h : ∃ visits, marks.Records d count visits)
    (hmark : marks.mark d visit = .ok marks') : ∃ visits, marks'.Records d count visits := by
  obtain ⟨visits, h⟩ := h
  obtain ⟨entry, hentry, -⟩ := bind_eq_ok.mp hmark
  have hlt := (Array.getElem?_eq_some_iff.mp (fetch_eq_ok.mp hentry)).1
  exact ⟨_, (h.yields_mark (h.size ▸ hlt)).of_ok hmark⟩

theorem ScanMarks.Records.exists_of_markStops {net : Network} {d : Direction} {count : Nat}
    {stops : List StopId} {marks : ScanMarks}
    (h : (ScanMarks.empty count).markStops net d stops = .ok marks) :
    ∃ visits, marks.Records d count visits := by
  refine foldlM_keeps (I := fun marks => ∃ visits, ScanMarks.Records d count marks visits)
    ⟨[], records_empty⟩ ?_ h
  intro before stop _ hbefore after hstop
  obtain ⟨visits, -, hvisits⟩ := bind_eq_ok.mp hstop
  refine foldlM_keeps (I := fun marks => ∃ visits, ScanMarks.Records d count marks visits) hbefore
    ?_ hvisits
  exact fun _ _ _ hmarks _ hmark => exists_of_mark hmarks hmark

/-- Marking fails only where a table has no place. -/
theorem ScanMarks.markStops_ne_overflow {net : Network} {d : Direction} {marks : ScanMarks}
    {stops : List StopId} : marks.markStops net d stops ≠ .error .overflow := by
  refine foldlM_ne_overflow fun marks stop => bind_ne_overflow fetch_ne_overflow fun visits => ?_
  refine foldlM_ne_overflow fun marks visit => bind_ne_overflow fetch_ne_overflow fun entry => ?_
  cases entry with
  | none => exact pure_ne_overflow
  | some first =>
    dsimp only
    split <;> exact pure_ne_overflow

section

variable {σ κ ι : Type} {scheme : Scheme σ κ ι} {course : Course}

/-- Draining a buffer is boarding after each arrival in it, and empties it. -/
theorem drain_eq (board : κ → ι → Checked κ) (arrivals : List ι) (onBoard : κ) :
    drain board arrivals onBoard = (·, []) <$> arrivals.foldlM board onBoard := by
  induction arrivals generalizing onBoard with
  | nil => rfl
  | cons arrival rest ih => simp only [drain, List.foldlM_cons, map_bind, ih]

/-- A visit with an empty buffer leaves it empty. -/
theorem visitIn_empty (p : Pattern) (current : σ × κ) (position : Nat) :
    visitIn scheme course p (current, []) position =
      (·, []) <$> visit scheme course p current position := by
  simp only [visitIn, visit, List.nil_append, drain_eq, map_bind, bind_map_left, map_ite, map_pure]

/-- A ride takes the mark of its pattern away, and leaves an empty buffer empty. -/
theorem ridePatternIn_empty {first : Array (Option Nat)} {pattern : PatternId} {start : Nat}
    (h : first[pattern]? = some (some start)) (state : σ) :
    ridePatternIn scheme course (state, ⟨⟨first, #[]⟩, []⟩) pattern =
      (·, ⟨⟨first.setIfInBounds pattern none, #[]⟩, []⟩) <$>
        ridePattern scheme course state (pattern, start) := by
  have hvisits : ∀ (p : Pattern) (positions : List Nat) (current : σ × κ),
      positions.foldlM (visitIn scheme course p) (current, []) =
        (·, []) <$> positions.foldlM (visit scheme course p) current :=
    fun p => foldlM_hom (·, []) (visitIn_empty p)
  simp only [ridePatternIn, fetch_of_getElem? h, ridePattern, hvisits, map_bind, bind_map_left,
    map_ite, map_pure]
  rfl

/-- A pattern without a mark is passed over. -/
theorem ridePatternIn_none {first : Array (Option Nat)} {pattern : PatternId}
    (h : first[pattern]? = some none) (state : σ) :
    ridePatternIn scheme course (state, ⟨⟨first, #[]⟩, []⟩) pattern =
      .ok (state, ⟨⟨first.setIfInBounds pattern none, #[]⟩, ([] : List ι)⟩) := by
  simp only [ridePatternIn, fetch_of_getElem? h]
  rfl

/-- The patterns of a queue are ridden from their first positions on, and their marks taken
away. -/
theorem foldlM_ridePatternIn {queue : List PatternId} (hnodup : queue.Nodup)
    {first : Array (Option Nat)} (hinside : ∀ pattern ∈ queue, pattern < first.size) (state : σ) :
    queue.foldlM (ridePatternIn scheme course) (state, ⟨⟨first, #[]⟩, []⟩) =
      (·, ⟨⟨queue.foldl (fun first pattern => first.setIfInBounds pattern none) first, #[]⟩, []⟩)
        <$> (queue.filterMap fun pattern =>
          (first.getD pattern none).map fun start => (pattern, start)).foldlM
            (ridePattern scheme course) state := by
  induction queue generalizing first state with
  | nil => rfl
  | cons pattern rest ih =>
    obtain ⟨hnew, hnodup⟩ := List.nodup_cons.mp hnodup
    have hlt : pattern < first.size := hinside pattern List.mem_cons_self
    -- taking this mark away does not touch those of the patterns that follow
    have hrest : (rest.filterMap fun other =>
        ((first.setIfInBounds pattern none).getD other none).map fun start => (other, start)) =
        rest.filterMap fun other =>
          (first.getD other none).map fun start => (other, start) := by
      refine List.filterMap_congr fun other hother => ?_
      rw [ScanMarks.getD_setIfInBounds hlt, if_neg]
      rintro rfl
      exact hnew hother
    have hinside : ∀ other ∈ rest, other < (first.setIfInBounds pattern none).size :=
      fun other hother => by simpa using hinside other (List.mem_cons_of_mem _ hother)
    have ih := fun state => ih hnodup hinside state
    rw [hrest] at ih
    rw [List.foldlM_cons, List.foldl_cons]
    cases hentry : first[pattern] with
    | none =>
      have hentry : first[pattern]? = some none := by simp [hlt, hentry]
      rw [ridePatternIn_none hentry, List.filterMap_cons_none (by simp [hentry])]
      exact ih state
    | some start =>
      have hentry : first[pattern]? = some (some start) := by simp [hlt, hentry]
      rw [ridePatternIn_empty hentry,
        List.filterMap_cons_some (b := (pattern, start)) (by simp [hentry])]
      simp only [List.foldlM_cons, bind_map_left, map_bind, ih]

/-- A round that finds its scratch empty is a round of the search, and leaves it empty. -/
theorem transitRoundIn_empty (state : σ) (count : Nat) :
    transitRoundIn scheme course state (.empty count) =
      (fun ridden => (ridden.1, ⟨ridden.2, []⟩)) <$>
        transitRound scheme course state (.empty count) := by
  simp only [transitRoundIn, transitRound, Scratch.empty]
  cases hmarks : (ScanMarks.empty count).markStops course.network course.direction
      (scheme.reached state).toList with
  | error fault => rfl
  | ok marks =>
    obtain ⟨visits, hrecords⟩ := ScanMarks.Records.exists_of_markStops hmarks
    have hinside : ∀ pattern ∈ marks.queue.toList, pattern < marks.first.size := by
      intro pattern hpattern
      obtain ⟨position, hvisit⟩ :=
        (hrecords.mem_queue pattern).mp (Array.mem_toList_iff.mp hpattern)
      obtain ⟨first, hfirst⟩ := hrecords.marked pattern position hvisit
      by_contra hge
      simp [Array.getElem?_eq_none (Nat.le_of_not_lt hge)] at hfirst
    show (marks.queue.toList.foldlM (ridePatternIn scheme course) _ >>= _) = _
    rw [foldlM_ridePatternIn hrecords.nodup hinside, Array.foldl_toList, bind_map_left]
    show (marks.plan.foldlM (ridePattern scheme course) state >>= _) =
      (fun ridden : σ × ScanMarks => (ridden.1, (⟨ridden.2, []⟩ : Scratch ι))) <$>
        (marks.plan.foldlM (ridePattern scheme course) state >>= fun state =>
          pure (state, marks.clear))
    rw [map_bind]
    rfl

/-- What a round with new scratch does. -/
def freshRound (scheme : Scheme σ κ ι) (course : Course) (state : σ) : Checked σ :=
  (·.1) <$> transitRound scheme course state (.empty course.network.patternCount)

/-- A round that finds no mark leaves none. -/
theorem transitRound_eq_fresh (state : σ) :
    transitRound scheme course state (.empty course.network.patternCount) =
      (·, .empty course.network.patternCount) <$> freshRound scheme course state := by
  rw [freshRound, Functor.map_map]
  cases hround : transitRound scheme course state (.empty course.network.patternCount) with
  | error fault => rfl
  | ok ridden =>
    obtain ⟨marks, hmarks, h⟩ := bind_eq_ok.mp hround
    obtain ⟨state, -, h⟩ := bind_eq_ok.mp h
    cases h
    obtain ⟨visits, hrecords⟩ := ScanMarks.Records.exists_of_markStops hmarks
    rw [hrecords.clear_eq]
    rfl

/-- A round that finds its scratch empty leaves it empty. -/
theorem transitRoundIn_eq_fresh (state : σ) :
    transitRoundIn scheme course state (.empty course.network.patternCount) =
      (·, .empty course.network.patternCount) <$> freshRound scheme course state := by
  rw [transitRoundIn_empty, transitRound_eq_fresh, Functor.map_map]
  rfl

end

/-! ### Runs with scratch -/

/-- A search between two rounds, with scratch of some kind. -/
structure Stage (σ τ : Type) where
  state : σ
  scratch : τ
  /-- the highest number of rounds of an iteration -/
  rounds : Nat

section

variable {σ κ ι τ : Type} (scheme : Scheme σ κ ι) (course : Course)
  (ride : σ → τ → Checked (σ × τ))

/-- At most `remaining` rounds from `round` on, each of which rides with the scratch that the one
before has left. -/
def roundsWith (time : Time) : (remaining : Nat) → (round : Nat) → Stage σ τ →
    Checked (Stage σ τ)
  | 0, _, stage => pure stage
  | remaining + 1, round, ⟨state, scratch, rounds⟩ => do
    let (more, state) ← scheme.advance round state
    if course.goesOn round more then
      let (state, scratch) ← ride state scratch
      let state ← boardRound scheme course time round state
      let state ← walkRound scheme course state
      let state ← scheme.finish state
      let next ← byte (round + 1)
      roundsWith time remaining next ⟨state, scratch, max rounds round⟩
    else return ⟨state, scratch, rounds⟩

def iterateWith (stage : Stage σ τ) (time : Time) : Checked (Stage σ τ) := do
  let ⟨state, scratch, rounds⟩ := stage
  let state ← course.walkingAccess.foldlM (fun state c => scheme.seed c time state)
    (scheme.start time state)
  roundsWith scheme course ride time course.maxRounds 1 ⟨state, scratch, rounds⟩

def runWith (deadline : Deadline) (stage : Stage σ τ) (times : List Time) :
    Checked (Stage σ τ) :=
  times.foldlM (fun stage time => do
    deadline.check (.iteration time)
    iterateWith scheme course ride stage time) stage

end

section

variable {σ κ ι τ : Type} {scheme : Scheme σ κ ι} {course : Course} {time : Time}
  {ride : σ → τ → Checked (σ × τ)} {empty : τ} {plain : σ → Checked σ}

/-- A search is one whose scratch are its marks. -/
def Stage.progress (stage : Stage σ ScanMarks) : Progress σ :=
  ⟨stage.state, stage.scratch, stage.rounds⟩

/-- By induction on the rounds: those of a search are the rounds whose scratch are its marks. -/
theorem roundsFrom_eq {remaining round : Nat} {stage : Stage σ ScanMarks} :
    roundsFrom scheme course time remaining round stage.progress =
      Stage.progress <$>
        roundsWith scheme course (transitRound scheme course) time remaining round stage := by
  induction remaining generalizing round stage with
  | zero => rfl
  | succ remaining ih =>
    obtain ⟨state, marks, rounds⟩ := stage
    rw [roundsFrom_succ, roundsWith]
    simp only [Stage.progress, playRound, bind_assoc, map_bind, map_ite, map_pure]
    congr 1
    funext turned
    cases course.goesOn round turned.1 with
    | false => rfl
    | true =>
      simp only [if_true, bind_assoc, pure_bind, ← ih]
      rfl

theorem iterate_eq (stage : Stage σ ScanMarks) (time : Time) :
    iterate scheme course stage.progress time =
      Stage.progress <$> iterateWith scheme course (transitRound scheme course) stage time := by
  simp only [iterateWith, map_bind, ← roundsFrom_eq]
  rfl

/-- A run is one whose scratch are its marks. -/
theorem run_eq (deadline : Deadline) (stage : Stage σ ScanMarks) (times : List Time) :
    run scheme course deadline stage.progress times =
      Stage.progress <$>
        runWith scheme course (transitRound scheme course) deadline stage times := by
  refine foldlM_hom Stage.progress (fun stage time => ?_) times stage
  simp only [iterate_eq, map_bind]

def Stage.withScratch {τ' : Type} (scratch : τ') (stage : Stage σ τ) : Stage σ τ' :=
  { stage with scratch }

section

variable (hride : ∀ state, ride state empty = (·, empty) <$> plain state)

include hride

/-- By induction on the rounds: each leaves the scratch as empty as it has found it. -/
theorem roundsWith_empty {remaining round : Nat} (stage : Stage σ Unit) :
    roundsWith scheme course ride time remaining round (stage.withScratch empty) =
      (·.withScratch empty) <$> roundsWith scheme course (fun state new => (·, new) <$> plain state)
        time remaining round stage := by
  induction remaining generalizing round stage with
  | zero => rfl
  | succ remaining ih =>
    obtain ⟨state, new, rounds⟩ := stage
    simp only [Stage.withScratch] at ih ⊢
    simp only [roundsWith, hride, bind_map_left, map_bind, map_ite, map_pure, ← ih]

theorem iterateWith_empty (stage : Stage σ Unit) (time : Time) :
    iterateWith scheme course ride (stage.withScratch empty) time =
      (·.withScratch empty) <$> iterateWith scheme course
        (fun state new => (·, new) <$> plain state) stage time := by
  simp only [iterateWith, map_bind, ← roundsWith_empty hride]
  rfl

/-- Scratch that every round finds empty and leaves empty is of no effect on a run. -/
theorem runWith_empty (deadline : Deadline) (state : σ) (rounds : Nat) (times : List Time) :
    runWith scheme course ride deadline ⟨state, empty, rounds⟩ times =
      (·.withScratch empty) <$> runWith scheme course (fun state new => (·, new) <$> plain state)
        deadline ⟨state, (), rounds⟩ times := by
  refine foldlM_hom (Stage.withScratch empty) (fun stage time => ?_) times ⟨state, (), rounds⟩
  simp only [iterateWith_empty hride, map_bind]

end

end

/-! ### The rounds of a search -/

/-- A round performs some scans: one after the other, with nothing before, between and after
them. It finds its scratch empty and leaves it empty. -/
structure Scheme.Performs {σ κ ι : Type} (scheme : Scheme σ κ ι) (course : Course) (state : σ)
    (scans : List Scan) : Prop where
  round : transitRound scheme course state (.empty course.network.patternCount) =
    (·, .empty course.network.patternCount) <$> scans.foldlM
      (Scan.perform scheme course.network course.direction (scheme.reached state)) state
  scratch : transitRoundIn scheme course state (.empty course.network.patternCount) =
    (·, .empty course.network.patternCount) <$> scans.foldlM
      (Scan.perform scheme course.network course.direction (scheme.reached state)) state

/-- A round performs the scans of its plan. -/
theorem Scheme.Steady.performs {σ κ ι : Type} {scheme : Scheme σ κ ι} (hsteady : scheme.Steady)
    {course : Course} (hnet : course.network.Sound) {state : σ} {marks : ScanMarks}
    (hmarks : (ScanMarks.empty course.network.patternCount).markStops course.network
      course.direction (scheme.reached state).toList = .ok marks)
    (hrecords : marks.Records course.direction course.network.patternCount
      (ScanMarks.visitsAt course.network (scheme.reached state).toList))
    (hreached : ∀ stop, (scheme.reached state).contains stop = true →
      stop < course.network.stopCount) :
    scheme.Performs course state
      (marks.plan.filterMap (course.network.scan? course.direction)) := by
  have hplan : ∀ start ∈ marks.plan, ∃ p, course.network.patterns[start.1]? = some p ∧
      start.2 < p.length := by
    rintro ⟨pattern, first⟩ hstart
    obtain ⟨p, hp, stop, hstop, -⟩ :=
      (mem_visitsAt_touched hnet hreached).mp (hrecords.mem_plan.mp hstart).1
    exact ⟨p, hp, (Array.getElem?_eq_some_iff.mp hstop).1⟩
  have hround : transitRound scheme course state (.empty course.network.patternCount) =
      (·, .empty course.network.patternCount) <$>
        (marks.plan.filterMap (course.network.scan? course.direction)).foldlM
          (Scan.perform scheme course.network course.direction (scheme.reached state)) state := by
    rw [transitRound, hmarks, ← hsteady.ridePlan_eq hnet hplan rfl]
    show (marks.plan.foldlM (ridePattern scheme course) state >>= fun state =>
      pure (state, marks.clear)) = _
    rw [hrecords.clear_eq, bind_pure_comp]
  refine ⟨hround, ?_⟩
  rw [transitRoundIn_empty, hround, Functor.map_map]
  rfl

/-- A run that rides with new scratch in every round. -/
def freshRun {σ κ ι : Type} (scheme : Scheme σ κ ι) (course : Course) (deadline : Deadline)
    (state : σ) (times : List Time) : Checked (Stage σ Unit) :=
  runWith scheme course (fun state new => (·, new) <$> freshRound scheme course state) deadline
    ⟨state, (), 0⟩ times

/-- No round of a run finds anything that an earlier one left in the scratch, and nothing is left
there at the end: it goes as if the scratch were new in every round. -/
structure Scheme.Clears {σ κ ι : Type} (scheme : Scheme σ κ ι) (course : Course)
    (deadline : Deadline) (state : σ) (times : List Time) : Prop where
  marks : run scheme course deadline (.new course state) times =
    (fun stage => ⟨stage.state, .empty course.network.patternCount, stage.rounds⟩) <$>
      freshRun scheme course deadline state times
  scratch : runWith scheme course (transitRoundIn scheme course) deadline
      ⟨state, .empty course.network.patternCount, 0⟩ times =
    (·.withScratch (.empty course.network.patternCount)) <$>
      freshRun scheme course deadline state times

/-- Both ways to ride clear the scratch in every round, so that a run is the one with new scratch.
-/
theorem Scheme.clears {σ κ ι : Type} (scheme : Scheme σ κ ι) (course : Course)
    (deadline : Deadline) (state : σ) (times : List Time) :
    scheme.Clears course deadline state times where
  marks := by
    have hrun : run scheme course deadline (.new course state) times = Stage.progress <$>
        runWith scheme course (transitRound scheme course) deadline
          ⟨state, .empty course.network.patternCount, 0⟩ times :=
      run_eq deadline ⟨state, .empty course.network.patternCount, 0⟩ times
    rw [hrun, runWith_empty transitRound_eq_fresh, Functor.map_map]
    rfl
  scratch := runWith_empty transitRoundIn_eq_fresh deadline state 0 times

/-- The stops of a network that were touched decide what a round does in any search that leaves them
as they are while it rides: one scan of every pattern with trips through such a stop and none of
another pattern, each from the first touched position on. The round leaves no mark, no pattern to
ride and no arrival behind, so that every round of a run finds its scratch empty. -/
theorem transitRound_scans {net : Network} (hnet : net.Sound) (d : Direction) {touched : IndexSet}
    (htouched : ∀ stop, touched.contains stop = true → stop < net.stopCount) :
    (∃ scans, IsRound net d touched scans ∧
      ∀ (σ κ ι : Type) (scheme : Scheme σ κ ι) (course : Course) (state : σ), scheme.Steady →
        course.network = net → course.direction = d → scheme.reached state = touched →
        scheme.Performs course state scans) ∧
    (∀ c, (labelScheme c).Steady) ∧ (∀ c, (boundScheme c).Steady) ∧
    ∀ (σ κ ι : Type) (scheme : Scheme σ κ ι) (course : Course) (deadline : Deadline) (state : σ)
      (times : List Time), scheme.Clears course deadline state times := by
  refine ⟨?_, labelScheme_steady, boundScheme_steady, fun _ _ _ => Scheme.clears⟩
  have hstops : ∀ stop ∈ touched.toList, stop < net.stopCount :=
    fun stop hstop => htouched stop (IndexSet.mem_toList.mp hstop)
  obtain ⟨marks, hmarks, hrecords⟩ :=
    (ScanMarks.yields_markStops hnet d hstops).exists_ok ScanMarks.markStops_ne_overflow
  refine ⟨_, hrecords.isRound hnet htouched, ?_⟩
  rintro σ κ ι scheme course state hsteady rfl rfl rfl
  exact hsteady.performs hnet hmarks hrecords htouched

/-! ### A pattern without trips -/

/-- The network with no trips on a pattern. -/
def Network.withoutTrips (net : Network) (pattern : PatternId) : Network :=
  { net with
    timetables := net.timetables.mapIdx fun i t => if i = pattern then .empty i t.length else t }

theorem Network.Sound.withoutTrips {net : Network} (hnet : net.Sound) (hrules : net.rules = none)
    (pattern : PatternId) : (net.withoutTrips pattern).Sound := by
  have hcases : ∀ {i : Nat} {t : Timetable}, (net.withoutTrips pattern).timetables[i]? = some t →
      net.timetables[i]? = some t ∨
        ∃ t', net.timetables[i]? = some t' ∧ t = .empty i t'.length := by
    intro i t ht
    rw [Network.withoutTrips, Array.getElem?_mapIdx, Option.map_eq_some_iff] at ht
    obtain ⟨t', ht', rfl⟩ := ht
    split
    · exact .inr ⟨t', ht', rfl⟩
    · exact .inl ht'
  exact { hnet with
    timetables_size := by simpa [Network.withoutTrips] using hnet.timetables_size
    timetable_sound := by
      intro i p t hp ht
      rcases hcases ht with ht | ⟨t', ht', rfl⟩
      · exact hnet.timetable_sound hp ht
      · have hlength : t'.length = p.length := by
          simp [Timetable.length, (hnet.timetable_sound hp ht').departures_eq]
        rw [hlength]
        exact Timetable.empty_sound i p.length
    trip_route := by
      intro i rank p t trip hp ht htrip
      rcases hcases ht with ht | ⟨t', -, rfl⟩
      · exact hnet.trip_route hp ht htrip
      · cases htrip
    trip_pattern := by
      intro i rank t trip ht htrip
      rcases hcases ht with ht | ⟨t', -, rfl⟩
      · exact hnet.trip_pattern ht htrip
      · cases htrip
    same_reluctance := by
      intro i t ht trip htrip
      rcases hcases ht with ht | ⟨t', -, rfl⟩
      · exact hnet.same_reluctance ht trip htrip
      · cases Array.not_mem_empty _ htrip
    rules_eq := by
      intro index hindex
      cases hrules.symm.trans hindex }

/-- A line that comes back to A before it ends at C, and a second line from A to B. -/
def ringLine : Draft :=
  { Draft.new Draft.defaultDate with
    routes := #[⟨"ring", 0⟩, ⟨"spur", 0⟩]
    trips := #[
      ⟨"ring 1", 0, Draft.defaultCalendar,
        [⟨"A", 36000, 36000, .boardAndAlight⟩, ⟨"B", 36300, 36300, .boardAndAlight⟩,
          ⟨"A", 36600, 36600, .boardAndAlight⟩, ⟨"C", 36900, 36900, .boardAndAlight⟩]⟩,
      ⟨"spur 1", 1, Draft.defaultCalendar,
        [⟨"A", 36000, 36000, .boardAndAlight⟩, ⟨"B", 36200, 36200, .boardAndAlight⟩]⟩] }

theorem ringLine_built : ∃ net p t, ringLine.build = .ok net ∧ net.rules = none ∧
    net.stopCount = 3 ∧ net.patternCount = 2 ∧ net.patterns[0]? = some p ∧
    p.stops = #[0, 1, 0, 2] ∧ net.timetables[0]? = some t ∧ t.size ≠ 0 := by
  have hbuilds : ringLine.builds (fun net => net.rules.isNone && net.stopCount == 3 &&
      net.patternCount == 2 && net.patterns[0]?.any (·.stops == #[0, 1, 0, 2]) &&
      net.timetables[0]?.any (·.size != 0)) = true := by
    decide +kernel
  obtain ⟨net, hbuild, hbuilt⟩ := Draft.exists_of_builds hbuilds
  simp only [Bool.and_eq_true, beq_iff_eq, bne_iff_ne, Option.isNone_iff_eq_none,
    Option.any_eq_true] at hbuilt
  obtain ⟨⟨⟨⟨hrules, hstops⟩, hpatterns⟩, p, hp, hpositions⟩, t, ht, hsome⟩ := hbuilt
  exact ⟨net, p, t, hbuild, hrules, hstops, hpatterns, hp, hpositions, ht, hsome⟩

/-- After A and B were touched, a round that goes back in time rides the ring once, from its second
call at A on. The line from A to B, whose trips have been taken away, is not ridden. -/
theorem transitRound_scans_ring : ∃ built scans,
    let net := built.withoutTrips 1
    let touched := ((IndexSet.empty 3).insert 0).insert 1
    let course : Course := ⟨net, .reverse, 5, []⟩
    let state : BoundState := { BoundState.new 3 with reached := touched }
    ringLine.build = .ok built ∧ net.Sound ∧
    (∀ stop, touched.contains stop = true → stop < net.stopCount) ∧
    scans.map (·.pattern) = [0] ∧
    (∀ scan ∈ scans, ∀ position, position ∈ scan.positions ↔ position ≤ 2) ∧
    (boundScheme ⟨.reverse, plainTariff, none⟩).Performs course state scans := by
  obtain ⟨built, p, t, hbuild, hrules, hstops, hpatterns, hp, hpositions, ht, hsome⟩ :=
    ringLine_built
  have hnet := (Draft.build_sound hbuild).withoutTrips hrules 1
  have htouched : ∀ stop, (((IndexSet.empty 3).insert 0).insert 1).contains stop = true →
      stop < (built.withoutTrips 1).stopCount :=
    fun stop hstop => (IndexSet.lt_of_contains hstop).trans_eq hstops.symm
  obtain ⟨⟨scans, hround, hperforms⟩, -, hsteady, -⟩ :=
    transitRound_scans hnet .reverse htouched
  have hridden : scans.map (·.pattern) = [0] := by
    refine List.perm_singleton.mp ((List.perm_ext_iff_of_nodup hround.nodup (by simp)).mpr ?_)
    intro pattern
    rw [hround.mem_iff, List.mem_singleton]
    constructor
    · rintro ⟨other, t', hother, ht', hsome', -⟩
      have hlt : pattern < 2 := (Array.getElem?_eq_some_iff.mp hother).1.trans_eq hpatterns
      rcases Nat.le_one_iff_eq_zero_or_eq_one.mp (Nat.le_of_lt_succ hlt) with rfl | rfl
      · rfl
      · rw [Network.withoutTrips, Array.getElem?_mapIdx, Option.map_eq_some_iff] at ht'
        obtain ⟨_, -, rfl⟩ := ht'
        exact absurd rfl hsome'
    · rintro rfl
      refine ⟨p, t, hp, ?_, hsome, 0, 0, by rw [hpositions]; rfl, by decide⟩
      simp [Network.withoutTrips, ht]
  refine ⟨built, scans, hbuild, hnet, htouched, hridden, ?_,
    hperforms _ _ _ _ _ _ (hsteady _) rfl rfl rfl⟩
  intro scan hscan position
  have hpattern : scan.pattern = 0 := by
    have := List.mem_map_of_mem (f := (·.pattern)) hscan
    rwa [hridden, List.mem_singleton] at this
  rw [(hround.sweeps scan hscan p (hpattern ▸ hp)).mem_positions]
  simp only [Pattern.length, Pattern.Touches, hpositions, Direction.AtOrAfter,
    Direction.precedes, decide_eq_false_iff_not, not_lt]
  constructor
  · rintro ⟨-, first, ⟨stop, hstop, htouches⟩, hafter⟩
    have hfirst : first < 4 := (Array.getElem?_eq_some_iff.mp hstop).1
    have hend : first ≠ 3 := by
      rintro rfl
      cases hstop
      exact absurd htouches (by decide)
    omega
  · intro hle
    exact ⟨Nat.lt_succ_of_le (hle.trans (by decide)), 2, ⟨0, rfl, by decide⟩, hle⟩

end JourneyPlanner
