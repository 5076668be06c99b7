import JourneyPlanner.Proofs.Search.Marks

/-!
# Loops of a search

What the loops of a search by rounds yield, from what their turns yield. The statements are about
any scheme: a search states what each of its operations does, and the rules here carry it through
the positions of a pattern, the patterns of a round, the rounds of an iteration and the iterations
of a run.
-/

namespace JourneyPlanner

def Direction.walkSource (d : Direction) (walk : Walk) : StopId :=
  match d with
  | .forward => walk.source
  | .reverse => walk.target

/-- The rules about boarding a pattern in a direction, none outside the network. -/
def RuleIndex.rulesOf (index : RuleIndex) (d : Direction) (pattern : PatternId) : PatternRules :=
  match d with
  | .forward => index.forward.getD pattern ⟨#[]⟩
  | .reverse => index.reverse.getD pattern ⟨#[]⟩

/-- The plan of a round: every pattern through the stops reached, from the first such position in
the direction on. -/
structure IsPlan (net : Network) (d : Direction) (stops : List StopId)
    (plan : List (PatternId × Nat)) : Prop where
  mem_iff : ∀ {pattern first}, (pattern, first) ∈ plan ↔
    (pattern, first) ∈ ScanMarks.visitsAt net stops ∧
      ∀ position, (pattern, position) ∈ ScanMarks.visitsAt net stops → d.AtOrAfter first position
  exists_mem : ∀ {pattern position}, (pattern, position) ∈ ScanMarks.visitsAt net stops →
    ∃ first, (pattern, first) ∈ plan

namespace Network.Sound

variable {net : Network} (hnet : net.Sound)

include hnet

/-- A pattern of a sound network has a timetable. -/
theorem exists_timetable {i : Nat} {p : Pattern} (hp : net.patterns[i]? = some p) :
    ∃ t, net.timetables[i]? = some t := by
  have := (Array.getElem?_eq_some_iff.mp hp).1
  exact ⟨_, Array.getElem?_eq_getElem (by rw [hnet.timetables_size]; exact this)⟩

theorem exists_canBoard {i position : Nat} {p : Pattern} (hp : net.patterns[i]? = some p)
    (hposition : position < p.length) (d : Direction) : ∃ b, d.canBoard p position = .ok b := by
  have hlt : position < p.flows.size := by rw [hnet.flows_size hp]; exact hposition
  cases d with
  | forward =>
    simp only [Direction.canBoard, Pattern.canBoard]
    split
    · exact ⟨_, by rw [fetch_of_getElem? (Array.getElem?_eq_getElem hlt)]; rfl⟩
    · exact ⟨false, rfl⟩
  | reverse =>
    simp only [Direction.canBoard, Pattern.canAlight]
    split
    · exact ⟨_, by rw [fetch_of_getElem? (Array.getElem?_eq_getElem hlt)]; rfl⟩
    · exact ⟨false, rfl⟩

theorem exists_canAlight {i position : Nat} {p : Pattern} (hp : net.patterns[i]? = some p)
    (hposition : position < p.length) (d : Direction) : ∃ b, d.canAlight p position = .ok b := by
  have := hnet.exists_canBoard hp hposition d.opposite
  cases d <;> exact this

theorem walkTarget_lt {w : Walk} (hw : net.HasWalk w) (d : Direction) :
    d.walkTarget w < net.stopCount := by
  cases d with
  | forward => exact hnet.walk_target_lt hw
  | reverse =>
    obtain ⟨walks, hwalks, -⟩ := hw
    rw [← hnet.walksFrom_size]
    exact (Array.getElem?_eq_some_iff.mp hwalks).1

/-- The rules about a pattern are found in the index. -/
theorem forPattern_eq {i : Nat} {p : Pattern} (hp : net.patterns[i]? = some p) {index : RuleIndex}
    (hindex : net.rules = some index) (d : Direction) :
    index.forPattern d p.id = .ok (index.rulesOf d p.id) := by
  obtain ⟨rules, rfl⟩ := hnet.rules_eq hindex
  have hlt : p.id < net.patterns.size := by
    rw [hnet.pattern_id hp]
    exact (Array.getElem?_eq_some_iff.mp hp).1
  have hentries : ∀ rules : Pattern × Timetable → PatternRules,
      fetch ((net.patterns.zip net.timetables).map rules) p.id =
        .ok (((net.patterns.zip net.timetables).map rules).getD p.id ⟨#[]⟩) := by
    intro rules
    have hsize : p.id < ((net.patterns.zip net.timetables).map rules).size := by
      simpa [hnet.timetables_size] using hlt
    rw [fetch_of_getElem? (Array.getElem?_eq_getElem hsize), Array.getD, dif_pos hsize]
    rfl
  cases d with
  | forward | reverse =>
    simp only [RuleIndex.forPattern, RuleIndex.rulesOf, RuleIndex.build, hentries]

end Network.Sound

section

variable {σ κ ι : Type} {scheme : Scheme σ κ ι} {course : Course}

/-! ### Riding -/

/-- A visit of a position: what leaving the trips on board keeps, and then what boarding keeps. -/
theorem yields_visit (hnet : course.network.Sound) {i position : Nat} {p : Pattern}
    (hp : course.network.patterns[i]? = some p) (hposition : position < p.length) {state : σ}
    {onBoard : κ} {M : σ → Prop} {Q : σ × κ → Prop}
    (halight : ∀ stop, p.stops[position]? = some stop →
      course.direction.canAlight p position = .ok true →
      Yields (scheme.alight onBoard stop position state) M)
    (hstay : course.direction.canAlight p position = .ok false → M state)
    (hboard : ∀ stop state, p.stops[position]? = some stop → M state →
      course.direction.canBoard p position = .ok true →
      (scheme.reached state).contains stop = true →
      Yields (scheme.boardable state stop) fun arrivals =>
        Yields (arrivals.foldlM
          (fun onBoard arrival => scheme.board state arrival stop position onBoard) onBoard)
          fun onBoard => Q (state, onBoard))
    (hskip : ∀ stop state, p.stops[position]? = some stop → M state →
      (course.direction.canBoard p position = .ok false ∨
        (scheme.reached state).contains stop = false) → Q (state, onBoard)) :
    Yields (visit scheme course p (state, onBoard) position) Q := by
  obtain ⟨alights, halights⟩ := hnet.exists_canAlight hp hposition course.direction
  obtain ⟨boards, hboards⟩ := hnet.exists_canBoard hp hposition course.direction
  have hsize : position < p.stops.size := hposition
  have hstop := Array.getElem?_eq_getElem hsize
  have hboarding : ∀ state, M state →
      Yields (do
        let boards ← course.direction.canBoard p position
        if boards && (scheme.reached state).contains p.stops[position] then
          let arrivals ← scheme.boardable state p.stops[position]
          let onBoard ← arrivals.foldlM
            (fun onBoard arrival => scheme.board state arrival p.stops[position] position onBoard)
            onBoard
          return (state, onBoard)
        else return (state, onBoard)) Q := by
    intro state hM
    rw [hboards]
    show Yields (if (boards && (scheme.reached state).contains p.stops[position]) = true then _
      else _) Q
    refine Yields.ite (fun hyes => ?_) fun hno => ?_
    · rw [Bool.and_eq_true] at hyes
      refine (hboard _ state hstop hM (by rw [hboards, hyes.1]) hyes.2).bind
        fun arrivals _ harrivals => ?_
      exact harrivals.bind fun onBoard _ hQ => hQ
    · refine hskip _ state hstop hM ?_
      cases boards with
      | false => exact .inl hboards
      | true => exact .inr (by simpa using hno)
  rw [visit, Pattern.stopAt, fetch_of_getElem? hstop, halights]
  cases alights with
  | true => exact (halight _ hstop halights).bind fun state _ hM => hboarding state hM
  | false => exact hboarding state (hstay halights)

/-- A ride along a pattern, from what every visit of a position keeps. -/
theorem yields_ridePattern {state : σ} {start : PatternId × Nat}
    {p : Pattern} {t : Timetable} (hp : course.network.patterns[start.1]? = some p)
    (ht : course.network.timetables[start.1]? = some t) {A : List Nat → σ → κ → Prop}
    {Q : σ → Prop} (hnone : t.size = 0 → Q state)
    (henter : t.size ≠ 0 → Yields (scheme.enter p t) (A [] state))
    (hvisit : ∀ done position rest state onBoard,
      course.direction.positionsFrom start.2 p.length = done ++ position :: rest →
      A done state onBoard →
      Yields (visit scheme course p (state, onBoard) position)
        fun current => A (done ++ [position]) current.1 current.2)
    (hdone : ∀ state onBoard,
      A (course.direction.positionsFrom start.2 p.length) state onBoard → Q state) :
    Yields (ridePattern scheme course state start) Q := by
  rw [ridePattern, Network.pattern, Network.timetable, fetch_of_getElem? hp,
    fetch_of_getElem? ht]
  show Yields (if t.size = 0 then _ else _) Q
  refine Yields.ite hnone fun hsome => ?_
  refine (henter hsome).bind fun onBoard _ hA => ?_
  have := Yields.foldlM_done (I := fun done (current : σ × κ) => A done current.1 current.2)
    (f := visit scheme course p) (s := (state, onBoard)) hA fun done position current
    ⟨rest, hrest⟩ hA =>
      hvisit done position rest current.1 current.2 hrest hA
  exact this.bind fun current _ hA => hdone current.1 current.2 hA

/-- The rides of a round, from what the ride along each pattern of the plan keeps. -/
theorem yields_transitRound (hnet : course.network.Sound) {state : σ} {marks : ScanMarks}
    (hmarks : marks = .empty course.network.patternCount)
    (hreached : ∀ stop, (scheme.reached state).contains stop = true →
      stop < course.network.stopCount)
    {A : List (PatternId × Nat) → σ → Prop} {Q : σ → Prop} (hstart : A [] state)
    (hride : ∀ plan done start rest s,
      IsPlan course.network course.direction (scheme.reached state).toList plan →
      plan = done ++ start :: rest → A done s →
      Yields (ridePattern scheme course s start) (A (done ++ [start])))
    (hdone : ∀ plan s,
      IsPlan course.network course.direction (scheme.reached state).toList plan →
      A plan s → Q s) :
    Yields (transitRound scheme course state marks) fun result =>
      Q result.1 ∧ result.2 = .empty course.network.patternCount := by
  subst hmarks
  have hstops : ∀ stop ∈ (scheme.reached state).toList, stop < course.network.stopCount :=
    fun stop hstop => hreached stop (IndexSet.mem_toList.mp hstop)
  refine (ScanMarks.yields_markStops hnet course.direction hstops).bind
    fun marks _ hrecords => ?_
  have hplan : IsPlan course.network course.direction (scheme.reached state).toList marks.plan :=
    ⟨hrecords.mem_plan, hrecords.exists_mem_plan⟩
  have hfold := Yields.foldlM_done (I := A) hstart fun done start s ⟨rest, hrest⟩ hA =>
    hride _ done start rest s hplan hrest hA
  exact hfold.bind fun s _ hA => ⟨hdone _ s hplan hA, hrecords.clear_eq⟩

/-! ### Walking -/

theorem Network.Sound.yields_walks {net : Network} (hnet : net.Sound) (d : Direction)
    {stop : StopId} (hstop : stop < net.stopCount) :
    Yields (net.walks d stop) fun walks => ∀ w, w ∈ walks ↔
      net.HasWalk w ∧ d.walkSource w = stop := by
  cases d with
  | forward =>
    exact (yields_fetch (by rw [hnet.walksFrom_size]; exact hstop)).mono
      fun walks _ h => hnet.mem_walksFrom h
  | reverse =>
    exact (yields_fetch (by rw [hnet.walksTo_size]; exact hstop)).mono
      fun walks _ h => hnet.mem_walksTo h

/-- The walks of a round, from what the walks from each stop keep. -/
theorem yields_walkRound (hnet : course.network.Sound) {state : σ}
    (hridden : ∀ stop, (scheme.ridden state).contains stop = true →
      stop < course.network.stopCount)
    {A : List StopId → σ → Prop} (hstart : A [] state)
    (hwalk : ∀ done stop rest s walks, (scheme.ridden state).toList = done ++ stop :: rest →
      (∀ w, w ∈ walks ↔ course.network.HasWalk w ∧ course.direction.walkSource w = stop) →
      A done s → Yields (scheme.walk stop walks s) (A (done ++ [stop]))) :
    Yields (walkRound scheme course state) (A (scheme.ridden state).toList) := by
  refine Yields.foldlM_done hstart fun done stop s ⟨rest, hrest⟩ hA => ?_
  have hstop : stop < course.network.stopCount :=
    hridden stop (IndexSet.mem_toList.mp (by simp [hrest]))
  exact (hnet.yields_walks course.direction hstop).bind
    fun walks _ hwalks => hwalk done stop rest s walks hrest hwalks hA

/-! ### Rounds -/

/-- A number of rides that a search finds: one for each of its rounds. With as many rounds as a byte
counts a search either overflows or goes on until nothing is left to find, however many rides that
takes. -/
def Course.Allows (course : Course) (rides : Nat) : Prop :=
  course.maxRounds < 255 → rides ≤ course.maxRounds

theorem Course.Allows.mono {course : Course} {rides fewer : Nat} (h : course.Allows rides)
    (hfewer : fewer ≤ rides) : course.Allows fewer :=
  fun hrounds => hfewer.trans (h hrounds)

/-- Whether another round is made. -/
def Course.goesOn (course : Course) (round : Nat) (more : Bool) : Bool :=
  more || (round == 1 && !course.onBoardAccess.isEmpty)

/-- In the first round the legs that start on board arrive. -/
def boardRound (scheme : Scheme σ κ ι) (course : Course) (time : Time) (round : Nat) (state : σ) :
    Checked σ :=
  if round = 1 then
    course.onBoardAccess.foldlM (fun state c => scheme.seedOnBoard c time state) state
  else pure state

/-- The rounds of an iteration, from what the parts of each of them keep one after the other. -/
theorem yields_roundsFrom {time : Time} {B : Nat → σ → Prop} {D : σ → Prop}
    {n : Nat}
    (hround : ∀ round state, round < n → B round state →
      Yields (scheme.advance round state) fun turned =>
        (course.goesOn round turned.1 = false → D turned.2) ∧
        (course.goesOn round turned.1 = true →
          Yields (transitRound scheme course turned.2 (.empty course.network.patternCount))
            fun result => Yields (boardRound scheme course time round result.1)
              (fun state => Yields (walkRound scheme course state)
                fun state => Yields (scheme.finish state)
                  fun state => round + 1 < 256 → B (round + 1) state) ∧
              result.2 = .empty course.network.patternCount))
    (hlast : ∀ state, B n state → D state) {remaining round : Nat}
    (hremaining : round + remaining = n) {progress : Progress σ}
    (hmarks : progress.marks = .empty course.network.patternCount)
    (hbefore : B round progress.state) :
    Yields (roundsFrom scheme course time remaining round progress) fun progress =>
      D progress.state ∧ progress.marks = .empty course.network.patternCount := by
  induction remaining generalizing round progress with
  | zero =>
    have : round = n := by omega
    subst this
    exact ⟨hlast _ hbefore, hmarks⟩
  | succ remaining ih =>
    obtain ⟨state, marks, rounds⟩ := progress
    dsimp only at hmarks hbefore
    subst hmarks
    rw [roundsFrom]
    refine (hround round state (by omega) hbefore).bind fun ⟨more, turned⟩ _ ⟨hstop, hgo⟩ => ?_
    dsimp only at hstop hgo ⊢
    have hgoesOn : (!more && !(round == 1 && !course.onBoardAccess.isEmpty)) =
        !course.goesOn round more := by
      rw [Course.goesOn, Bool.not_or]
    rw [hgoesOn]
    refine Yields.ite (fun hno => ⟨hstop (by simpa using hno), rfl⟩) fun hyes => ?_
    refine (hgo (by simpa using hyes)).bind ?_
    rintro ⟨ridden, marks⟩ - ⟨hboard, rfl⟩
    have hrest : ∀ state, (Yields (walkRound scheme course state)
          fun state => Yields (scheme.finish state)
            fun state => round + 1 < 256 → B (round + 1) state) →
        Yields (do
          let state ← walkRound scheme course state
          let state ← scheme.finish state
          let next ← byte (round + 1)
          roundsFrom scheme course time remaining next
            ⟨state, .empty course.network.patternCount, max rounds round⟩) fun progress =>
          D progress.state ∧ progress.marks = .empty course.network.patternCount := by
      intro state hwalk
      refine hwalk.bind fun walked _ hfinish => ?_
      refine hfinish.bind fun finished _ hnext => ?_
      refine (yields_byte _).bind ?_
      rintro next - ⟨rfl, hlt⟩
      exact ih (by omega) rfl (hnext hlt)
    rw [boardRound] at hboard
    dsimp only at hboard ⊢
    by_cases hfirst : round = 1
    · rw [if_pos hfirst] at hboard ⊢
      exact hboard.bind fun state _ => hrest state
    · rw [if_neg hfirst] at hboard ⊢
      exact hrest _ hboard

/-- An iteration, from what its legs that start with a walk and its rounds keep. -/
theorem yields_iterate {time : Time} {A : List Connector → σ → Prop} {D : σ → Prop}
    {progress : Progress σ} (hmarks : progress.marks = .empty course.network.patternCount)
    (hstart : A [] (scheme.start time progress.state))
    (hseed : ∀ done c rest state, course.walkingAccess = done ++ c :: rest → A done state →
      Yields (scheme.seed c time state) (A (done ++ [c])))
    (hrounds : ∀ progress : Progress σ, progress.marks = .empty course.network.patternCount →
      A course.walkingAccess progress.state →
      Yields (roundsFrom scheme course time course.maxRounds 1 progress) fun progress =>
        D progress.state ∧ progress.marks = .empty course.network.patternCount) :
    Yields (iterate scheme course progress time) fun progress =>
      D progress.state ∧ progress.marks = .empty course.network.patternCount := by
  obtain ⟨state, marks, rounds⟩ := progress
  have hfold := Yields.foldlM_done (I := A) (f := fun state c => scheme.seed c time state) hstart
    fun done c state ⟨rest, hrest⟩ hA => hseed done c rest state hrest hA
  exact hfold.bind fun state _ hA => hrounds ⟨state, marks, rounds⟩ hmarks hA

/-- The iterations of a run without a time budget, from what each of them keeps. -/
theorem yields_run {A : List Time → σ → Prop} {times : List Time} {progress : Progress σ}
    (hmarks : progress.marks = .empty course.network.patternCount) (hstart : A [] progress.state)
    (hiterate : ∀ done time rest (progress : Progress σ), times = done ++ time :: rest →
      progress.marks = .empty course.network.patternCount → A done progress.state →
      Yields (iterate scheme course progress time) fun progress =>
        A (done ++ [time]) progress.state ∧
          progress.marks = .empty course.network.patternCount) :
    Yields (run scheme course .unlimited progress times) fun progress =>
      A times progress.state := by
  have hfold := Yields.foldlM_done
    (I := fun done (progress : Progress σ) => A done progress.state ∧
      progress.marks = .empty course.network.patternCount)
    (f := fun progress time => iterate scheme course progress time) ⟨hstart, hmarks⟩
    fun done time progress ⟨rest, hrest⟩ hA => hiterate done time rest progress hrest hA.2 hA.1
  exact hfold.mono fun _ _ h => h.1

end

end JourneyPlanner
