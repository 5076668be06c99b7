import JourneyPlanner.Proofs.Search.Rounds
import JourneyPlanner.Search.Bounds
import JourneyPlanner.Search.Route

/-!
# The number of rounds

The number of a round is kept in a byte, and the number of the next round is computed even if no
other round is allowed. A search that is allowed 255 rounds overflows when it makes all of them,
and only then: the number of rounds alone never ends a search that is allowed fewer.

What a search finds with a counter that has no limit says which of these it is.

* `playRound`: one round.
* `freeRoundsFrom`, `freeIterate`, `freeRun`: the same search with a counter that has no limit.
* `CountsAs`: what becomes of a search whose counter is a byte.
* `run_counts`: this holds of every search.
* `search_rounds`: this holds of both searches for a request.
-/

namespace JourneyPlanner

section

variable {σ κ ι : Type} (scheme : Scheme σ κ ι) (course : Course)

/-! ### A counter without limit -/

/-- One round, and whether it was made: it is not if no stop has been reached. -/
def playRound (time : Time) (round : Nat) : Progress σ → Checked (Bool × Progress σ)
  | ⟨state, marks, rounds⟩ => do
    let (more, state) ← scheme.advance round state
    if course.goesOn round more then
      let (state, marks) ← transitRound scheme course state marks
      let state ← boardRound scheme course time round state
      let state ← walkRound scheme course state
      let state ← scheme.finish state
      return (true, ⟨state, marks, max rounds round⟩)
    else return (false, ⟨state, marks, rounds⟩)

/-- At most `remaining` rounds from `round` on. -/
def freeRoundsFrom (time : Time) : (remaining : Nat) → (round : Nat) → Progress σ →
    Checked (Progress σ)
  | 0, _, progress => pure progress
  | remaining + 1, round, progress => do
    let (made, progress) ← playRound scheme course time round progress
    if made then freeRoundsFrom time remaining (round + 1) progress else return progress

def freeIterate (progress : Progress σ) (time : Time) : Checked (Progress σ) := do
  let ⟨state, marks, rounds⟩ := progress
  let state ← course.walkingAccess.foldlM (fun state c => scheme.seed c time state)
    (scheme.start time state)
  freeRoundsFrom scheme course time course.maxRounds 1 ⟨state, marks, rounds⟩

def freeRun (deadline : Deadline) (progress : Progress σ) (times : List Time) :
    Checked (Progress σ) :=
  times.foldlM (fun progress time => do
    deadline.check (.iteration time)
    freeIterate scheme course progress time) progress

/-- What becomes of a search that is allowed `maxRounds` rounds when its counter is a byte: nothing
changes unless it makes the 255th round. -/
def CountsAs (maxRounds : Nat) (counted free : Checked (Progress σ)) : Prop :=
  match free with
  | .ok progress => counted = if progress.rounds < 255 then .ok progress else .error .overflow
  | .error fault => counted = .error fault ∨ 255 ≤ maxRounds ∧ counted = .error .overflow

end

section

variable {σ κ ι : Type} {scheme : Scheme σ κ ι} {course : Course} {time : Time}
  {remaining round maxRounds : Nat} {progress progress' : Progress σ} {made : Bool}
  {counted free : Checked (Progress σ)}

/-! ### Rounds -/

/-- The rounds of a search are made one after the other, with the number of the next one in
between. -/
theorem roundsFrom_succ : roundsFrom scheme course time (remaining + 1) round progress = (do
    let (made, progress) ← playRound scheme course time round progress
    if made then
      let next ← byte (round + 1)
      roundsFrom scheme course time remaining next progress
    else return progress) := by
  obtain ⟨state, marks, rounds⟩ := progress
  rw [roundsFrom, playRound, bind_assoc]
  congr 1
  funext result
  obtain ⟨more, turned⟩ := result
  have hgoesOn : (!more && !(round == 1 && !course.onBoardAccess.isEmpty)) =
      !course.goesOn round more := by
    rw [Course.goesOn, Bool.not_or]
  dsimp only
  rw [hgoesOn]
  cases course.goesOn round more with
  | false => rfl
  | true =>
    simp only [boardRound, bind_assoc, pure_bind, Bool.not_true, Bool.false_eq_true, if_false,
      if_true]
    congr 1
    funext result
    obtain ⟨ridden, marks⟩ := result
    by_cases hfirst : round = 1
    · simp only [if_pos hfirst]
    · simp only [if_neg hfirst, pure_bind]

/-- A round that is made counts. -/
theorem rounds_of_playRound
    (h : playRound scheme course time round progress = .ok (made, progress')) :
    progress'.rounds = if made then max progress.rounds round else progress.rounds := by
  obtain ⟨state, marks, rounds⟩ := progress
  obtain ⟨⟨more, turned⟩, -, h⟩ := bind_eq_ok.mp h
  dsimp only at h
  split at h
  · obtain ⟨_, -, h⟩ := bind_eq_ok.mp h
    obtain ⟨_, -, h⟩ := bind_eq_ok.mp h
    obtain ⟨_, -, h⟩ := bind_eq_ok.mp h
    obtain ⟨_, -, h⟩ := bind_eq_ok.mp h
    cases h
    rfl
  · cases h
    rfl

/-- Rounds are only added, and no more than are allowed. -/
theorem rounds_of_freeRoundsFrom (hremaining : round + remaining = maxRounds + 1)
    (hle : progress.rounds ≤ maxRounds)
    (h : freeRoundsFrom scheme course time remaining round progress = .ok progress') :
    progress.rounds ≤ progress'.rounds ∧ progress'.rounds ≤ maxRounds := by
  induction remaining generalizing round progress with
  | zero =>
    cases h
    exact ⟨le_rfl, hle⟩
  | succ remaining ih =>
    obtain ⟨⟨made, played⟩, hplayed, h⟩ := bind_eq_ok.mp h
    have hcount := rounds_of_playRound hplayed
    cases made with
    | false =>
      cases h
      exact ⟨hcount.ge, hcount.trans_le hle⟩
    | true =>
      have hcount : played.rounds = max progress.rounds round := hcount
      obtain ⟨hmore, hfew⟩ := ih (by omega) (by omega) h
      exact ⟨by omega, hfew⟩

/-- The rounds of an iteration. -/
theorem roundsFrom_counts (hround : 1 ≤ round) (hremaining : round + remaining = maxRounds + 1)
    (hmax : maxRounds ≤ 255) (hrounds : progress.rounds < 255) :
    CountsAs maxRounds (roundsFrom scheme course time remaining round progress)
      (freeRoundsFrom scheme course time remaining round progress) := by
  induction remaining generalizing round progress with
  | zero => exact (if_pos hrounds).symm
  | succ remaining ih =>
    rw [roundsFrom_succ, freeRoundsFrom]
    cases hplayed : playRound scheme course time round progress with
    | error fault => exact .inl rfl
    | ok result =>
      obtain ⟨made, played⟩ := result
      have hcount := rounds_of_playRound hplayed
      cases made with
      | false => exact (if_pos (hcount.trans_lt hrounds)).symm
      | true =>
        have hcount : played.rounds = max progress.rounds round := hcount
        by_cases hlast : round = 255
        · -- the 255th round is the last one, and the number after it does not fit
          obtain rfl : remaining = 0 := by omega
          have hbyte : byte (round + 1) = .error .overflow := if_neg (by omega)
          show (byte (round + 1) >>= _) = if played.rounds < 255 then _ else _
          rw [hbyte, if_neg (by omega)]
          rfl
        · have hbyte : byte (round + 1) = .ok (round + 1) := if_pos (by omega)
          show CountsAs maxRounds (byte (round + 1) >>= _) _
          rw [hbyte]
          exact ih (by omega) (by omega) (by omega)

/-! ### Iterations -/

variable {deadline : Deadline} {times : List Time}

theorem rounds_of_freeIterate (hle : progress.rounds ≤ course.maxRounds)
    (h : freeIterate scheme course progress time = .ok progress') :
    progress.rounds ≤ progress'.rounds ∧ progress'.rounds ≤ course.maxRounds := by
  obtain ⟨seeded, -, h⟩ := bind_eq_ok.mp h
  have hrounds := rounds_of_freeRoundsFrom (Nat.add_comm _ _) (by exact hle) h
  exact hrounds

/-- Every iteration is allowed all rounds. -/
theorem iterate_counts (hmax : course.maxRounds ≤ 255) (hrounds : progress.rounds < 255) :
    CountsAs course.maxRounds (iterate scheme course progress time)
      (freeIterate scheme course progress time) := by
  rw [iterate, freeIterate]
  cases course.walkingAccess.foldlM (fun state c => scheme.seed c time state)
      (scheme.start time progress.state) with
  | error fault => exact .inl rfl
  | ok seeded => exact roundsFrom_counts le_rfl (Nat.add_comm _ _) hmax hrounds

theorem run_cons : run scheme course deadline progress (time :: times) = (do
    deadline.check (.iteration time)
    let progress ← iterate scheme course progress time
    run scheme course deadline progress times) := by
  rw [run, List.foldlM_cons, bind_assoc]
  rfl

theorem freeRun_cons : freeRun scheme course deadline progress (time :: times) = (do
    deadline.check (.iteration time)
    let progress ← freeIterate scheme course progress time
    freeRun scheme course deadline progress times) := by
  rw [freeRun, List.foldlM_cons, bind_assoc]
  rfl

theorem rounds_of_freeRun (hle : progress.rounds ≤ course.maxRounds)
    (h : freeRun scheme course deadline progress times = .ok progress') :
    progress.rounds ≤ progress'.rounds ∧ progress'.rounds ≤ course.maxRounds := by
  induction times generalizing progress with
  | nil =>
    cases h
    exact ⟨le_rfl, hle⟩
  | cons time times ih =>
    rw [freeRun_cons] at h
    obtain ⟨_, -, h⟩ := bind_eq_ok.mp h
    obtain ⟨between, hiterate, h⟩ := bind_eq_ok.mp h
    obtain ⟨hmore, hfew⟩ := rounds_of_freeIterate hle hiterate
    obtain ⟨hrest, hfew⟩ := ih hfew h
    exact ⟨hmore.trans hrest, hfew⟩

/-- A search whose counter is a byte is one whose counter has no limit, unless it makes a 255th
round. -/
theorem run_counts (hmax : course.maxRounds ≤ 255) (hrounds : progress.rounds < 255)
    (hle : progress.rounds ≤ course.maxRounds) :
    CountsAs course.maxRounds (run scheme course deadline progress times)
      (freeRun scheme course deadline progress times) := by
  induction times generalizing progress with
  | nil => exact (if_pos hrounds).symm
  | cons time times ih =>
    rw [run_cons, freeRun_cons]
    cases deadline.check (.iteration time) with
    | error fault => exact .inl rfl
    | ok _ =>
      have hiterate : CountsAs course.maxRounds (iterate scheme course progress time)
        (freeIterate scheme course progress time) := iterate_counts hmax hrounds
      show CountsAs _ (iterate scheme course progress time >>= _)
        (freeIterate scheme course progress time >>= _)
      cases hfree : freeIterate scheme course progress time with
      | error fault =>
        rw [hfree] at hiterate
        rcases hiterate with hcounted | ⟨hall, hcounted⟩
        · rw [hcounted]
          exact .inl rfl
        · rw [hcounted]
          exact .inr ⟨hall, rfl⟩
      | ok between =>
        rw [hfree] at hiterate
        have hcounted : iterate scheme course progress time =
          if between.rounds < 255 then .ok between else .error .overflow := hiterate
        have hbetween := (rounds_of_freeIterate hle hfree).2
        rw [hcounted]
        by_cases hfew : between.rounds < 255
        · rw [if_pos hfew]
          exact ih hfew hbetween
        · -- the search has ended, and the other one cannot make fewer rounds any more
          rw [if_neg hfew]
          show CountsAs _ _ (freeRun scheme course deadline between times)
          cases hrest : freeRun scheme course deadline between times with
          | error fault => exact .inr ⟨by omega, rfl⟩
          | ok last =>
            have hmore := (rounds_of_freeRun hbetween hrest).1
            exact (if_neg (by omega)).symm

end

/-! ### Searches for a request -/

/-- What the counter does to a search. -/
structure CountsRounds {σ κ ι : Type} (scheme : Scheme σ κ ι) (course : Course) (state : σ)
    (deadline : Deadline) (times : List Time) : Prop where
  /-- nothing, if fewer than 255 rounds are allowed -/
  within : course.maxRounds < 255 → run scheme course deadline (.new course state) times =
    freeRun scheme course deadline (.new course state) times
  /-- otherwise it ends a search that makes 255 rounds, and none is ever made beyond the limit -/
  beyond : ∀ progress, freeRun scheme course deadline (.new course state) times = .ok progress →
    progress.rounds ≤ course.maxRounds ∧
    run scheme course deadline (.new course state) times =
      if progress.rounds < 255 then .ok progress else .error .overflow

theorem countsRounds {σ κ ι : Type} {scheme : Scheme σ κ ι} {course : Course} {state : σ}
    {deadline : Deadline} {times : List Time} (hmax : course.maxRounds ≤ 255) :
    CountsRounds scheme course state deadline times := by
  have hcounts : CountsAs course.maxRounds (run scheme course deadline (.new course state) times)
      (freeRun scheme course deadline (.new course state) times) :=
    run_counts hmax (by decide : 0 < 255) (Nat.zero_le _)
  constructor
  case within =>
    intro hfew
    cases hfree : freeRun scheme course deadline (.new course state) times with
    | error fault =>
      rw [hfree] at hcounts
      rcases hcounts with hcounts | ⟨hall, -⟩
      · exact hcounts
      · omega
    | ok progress =>
      have hle := (rounds_of_freeRun (Nat.zero_le _) hfree).2
      rw [hfree] at hcounts
      exact hcounts.trans (if_pos (by omega))
  case beyond =>
    intro progress hfree
    rw [hfree] at hcounts
    exact ⟨(rounds_of_freeRun (Nat.zero_le _) hfree).2, hcounts⟩

/-- In the search for bounds and in the search for labels the counter of the rounds is of no effect
if fewer than 254 transfers are allowed. If more are allowed it overflows at the end of the 255th
round, so that a search has a result only if it makes fewer. -/
theorem search_rounds (net : Network) (request : Request) (tariff : Tariff)
    (bounds : Option Bounds) (deadline : Deadline) (times : List Time) :
    let d := request.direction.opposite
    (request.maxRounds < 255 ↔ request.maxTransfers < 254) ∧
    CountsRounds (boundScheme ⟨d, tariff, request.rules net⟩)
      ⟨net, d, request.maxRounds, request.searchEgress⟩ (.new net.stopCount) deadline times ∧
    CountsRounds (labelScheme (net.labelScene request tariff bounds)) (net.labelCourse request)
      (.new net.stopCount request.maxRounds) deadline times := by
  have hmax : request.maxRounds ≤ 255 := Nat.min_le_right _ _
  refine ⟨?_, countsRounds hmax, countsRounds hmax⟩
  unfold Request.maxRounds
  omega

/-- A line on which every ride ends ten seconds before it starts. -/
def mill : Draft :=
  { Draft.new Draft.defaultDate with
    routes := #[⟨"mill", 0⟩]
    trips := #[⟨"mill 1", 0, Draft.defaultCalendar,
      [⟨"A", 36000, 36000, .boardAndAlight⟩, ⟨"A", 35990, 35990, .boardAndAlight⟩]⟩] }

/-- A question about the way from A to A with up to 254 transfers. -/
def fromAToA : Request :=
  { date := Draft.defaultDate
    direction := .forward
    time := 35000
    maxTransfers := 254
    access := [⟨0, 0, 0, false⟩]
    egress := [⟨0, 0, 0, false⟩] }

/-- On that line every ride brings a traveller closer: the search for bounds makes the 255th round,
and then the number of the next one does not fit. -/
theorem search_rounds_mill : ∃ net progress,
    let course : Course := ⟨net, .reverse, fromAToA.maxRounds, fromAToA.searchEgress⟩
    let scheme := boundScheme ⟨.reverse, plainTariff, fromAToA.rules net⟩
    let start := Progress.new course (.new net.stopCount)
    mill.build = .ok net ∧ fromAToA.maxRounds = 255 ∧
    freeRun scheme course .unlimited start [0] = .ok progress ∧ progress.rounds = 255 ∧
    run scheme course .unlimited start [0] = .error .overflow := by
  have hbuilds : mill.builds (fun net =>
      let course : Course := ⟨net, .reverse, fromAToA.maxRounds, fromAToA.searchEgress⟩
      (freeRun (boundScheme ⟨.reverse, plainTariff, fromAToA.rules net⟩) course .unlimited
        (.new course (.new net.stopCount)) [0]).toOption.any (·.rounds == 255)) = true := by
    decide +kernel
  obtain ⟨net, hbuild, hrounds⟩ := Draft.exists_of_builds hbuilds
  obtain ⟨-, hbounds, -⟩ := search_rounds net fromAToA plainTariff none .unlimited [0]
  cases hfree : freeRun (boundScheme ⟨.reverse, plainTariff, fromAToA.rules net⟩)
      ⟨net, .reverse, fromAToA.maxRounds, fromAToA.searchEgress⟩ .unlimited
      (.new ⟨net, .reverse, fromAToA.maxRounds, fromAToA.searchEgress⟩ (.new net.stopCount))
      [0] with
  | error fault => simp [hfree, Except.toOption] at hrounds
  | ok progress =>
    have hrounds : progress.rounds = 255 := by simpa [hfree, Except.toOption] using hrounds
    refine ⟨net, progress, hbuild, by decide, hfree, hrounds, ?_⟩
    exact (hbounds.beyond progress hfree).2.trans (if_neg (by omega))

end JourneyPlanner
