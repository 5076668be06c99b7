import JourneyPlanner.Search.Rounds
import JourneyPlanner.Proofs.Checked

/-!
# Searches with assertions

A search goes from state to state, and what all of these states have in common can be asserted: the
search that checks a property before and after each of its operations is the search itself. This
says more than that the last state has the property, since a search may overflow on the way.

* `Scheme.asserting`: a search that fails as soon as a state is without a property.
* `Same`: two computations are one and the same, and give values with a property.
* `Scheme.Keeps`: what the operations of a search have to keep.
* `Scheme.Keeps.same_run`: the assertions of a run never fail.
-/

namespace JourneyPlanner

/-! ### Assertions -/

/-- Go on with a state only if it has a property. -/
noncomputable def assert {σ : Type} (P : σ → Prop) (s : σ) : Checked σ :=
  open Classical in if P s then .ok s else .error .outOfBounds

theorem assert_of_holds {σ : Type} {P : σ → Prop} {s : σ} (hs : P s) : assert P s = .ok s :=
  if_pos hs

/-- A step with a property asserted before and after it. -/
noncomputable def asserted {σ : Type} (P : σ → Prop) (step : σ → Checked σ) (s : σ) :
    Checked σ := do
  assert P (← step (← assert P s))

/-- A search with a property asserted before and after all operations that change the state. The
start of an iteration cannot fail, and is followed by such an operation. -/
noncomputable def Scheme.asserting {σ κ ι : Type} (scheme : Scheme σ κ ι) (P : σ → Prop) :
    Scheme σ κ ι :=
  { scheme with
    seed := fun leg time => asserted P (scheme.seed leg time)
    seedOnBoard := fun leg time => asserted P (scheme.seedOnBoard leg time)
    advance := fun round s => do
      let (more, s) ← scheme.advance round (← assert P s)
      return (more, ← assert P s)
    alight := fun onBoard stop position => asserted P (scheme.alight onBoard stop position)
    walk := fun stop walks => asserted P (scheme.walk stop walks)
    finish := asserted P scheme.finish }

/-! ### Computations that are the same -/

/-- Two computations are the same, and their value has a property if there is one. -/
structure Same {α : Type} (x y : Checked α) (Q : α → Prop) : Prop where
  eq : x = y
  value : ∀ a, y = .ok a → Q a

namespace Same

variable {α β σ : Type} {x y : Checked α} {P Q : α → Prop}

theorem refl (h : ∀ a, x = .ok a → Q a) : Same x x Q := ⟨rfl, h⟩

theorem pure {a : α} (h : Q a) : Same (Pure.pure a) (Pure.pure a) Q :=
  refl (by rintro _ ⟨⟩; exact h)

/-- Computations that are the same go on in the same way. -/
theorem bind {f g : α → Checked β} {R : β → Prop} (h : Same x y P)
    (hfg : ∀ a, y = .ok a → P a → Same (f a) (g a) R) : Same (x >>= f) (y >>= g) R := by
  obtain ⟨rfl, hvalue⟩ := h
  cases x with
  | error fault => exact refl (by rintro _ ⟨⟩)
  | ok a => exact hfg a rfl (hvalue a rfl)

theorem ite {c : Prop} [Decidable c] {x' y' : Checked α} (hyes : c → Same x y Q)
    (hno : ¬c → Same x' y' Q) : Same (if c then x else x') (if c then y else y') Q := by
  split
  · exact hyes ‹_›
  · exact hno ‹_›

theorem mono (h : Same x y P) (hPQ : ∀ a, P a → Q a) : Same x y Q :=
  ⟨h.eq, fun a ha => hPQ a (h.value a ha)⟩

/-- Two loops with the same turns. -/
theorem foldlM {f g : σ → α → Checked σ} {I : σ → Prop} {xs : List α} {s : σ} (hs : I s)
    (hfg : ∀ s, ∀ a ∈ xs, I s → Same (f s a) (g s a) I) :
    Same (xs.foldlM f s) (xs.foldlM g s) I := by
  induction xs generalizing s with
  | nil => exact pure hs
  | cons a xs ih =>
    rw [List.foldlM_cons, List.foldlM_cons]
    refine (hfg s a List.mem_cons_self hs).bind fun s' _ hs' => ?_
    exact ih hs' fun s b hb => hfg s b (List.mem_cons_of_mem _ hb)

end Same

/-- What every turn of a loop keeps holds after the loop. -/
theorem foldlM_keeps {α σ : Type} {f : σ → α → Checked σ} {I : σ → Prop} {xs : List α} {s s' : σ}
    (hs : I s) (hf : ∀ s, ∀ a ∈ xs, I s → ∀ s', f s a = .ok s' → I s')
    (h : xs.foldlM f s = .ok s') : I s' :=
  (Same.foldlM hs fun s a ha hs => .refl (hf s a ha hs)).value s' h

/-- Assertions that hold change nothing. -/
theorem same_asserted {σ : Type} {P I : σ → Prop} {step : σ → Checked σ} {s : σ}
    (hP : ∀ s, I s → P s) (hs : P s) (hstep : ∀ s', step s = .ok s' → I s') :
    Same (asserted P step s) (step s) I := by
  constructor
  · rw [asserted, assert_of_holds hs]
    cases hresult : step s with
    | error fault => simp [bind, Except.bind, hresult]
    | ok s' => simp [bind, Except.bind, hresult, assert_of_holds (hP s' (hstep s' hresult))]
  · exact hstep

/-! ### Operations -/

/-- What the operations of a search keep: `I round` of the states of a round, and `J` of a state and
what is on board. Patterns are ridden in the rounds after the first states, those of round zero. -/
structure Scheme.Keeps {σ κ ι : Type} (scheme : Scheme σ κ ι) (course : Course)
    (I : Nat → σ → Prop) (J : σ → κ → Prop) : Prop where
  start : ∀ {round s} (time : Time), I round s → I 0 (scheme.start time s)
  seed : ∀ {leg time s s'}, leg ∈ course.walkingAccess → I 0 s →
    scheme.seed leg time s = .ok s' → I 0 s'
  seedOnBoard : ∀ {leg time s s'}, leg ∈ course.onBoardAccess → I 1 s →
    scheme.seedOnBoard leg time s = .ok s' → I 1 s'
  advance : ∀ {round s turned}, round < course.maxRounds → I round s →
    scheme.advance (round + 1) s = .ok turned → I (round + 1) turned.2
  enter : ∀ {p t s onBoard}, scheme.enter p t = .ok onBoard → J s onBoard
  alight : ∀ {round s onBoard stop position s'}, I (round + 1) s → J s onBoard →
    scheme.alight onBoard stop position s = .ok s' → I (round + 1) s' ∧ J s' onBoard
  board : ∀ {round s onBoard stop position arrivals arrival onBoard'}, I (round + 1) s →
    J s onBoard → scheme.boardable s stop = .ok arrivals → arrival ∈ arrivals →
    scheme.board s arrival stop position onBoard = .ok onBoard' → J s onBoard'
  walk : ∀ {round s stop walks s'}, I round s → scheme.walk stop walks s = .ok s' → I round s'
  finish : ∀ {round s s'}, I round s → scheme.finish s = .ok s' → I round s'

namespace Scheme.Keeps

variable {σ κ ι : Type} {scheme : Scheme σ κ ι} {course : Course} {I : Nat → σ → Prop}
  {J : σ → κ → Prop} {P : σ → Prop} {round : Nat} {s : σ} {time : Time}
  (h : scheme.Keeps course I J) (hP : ∀ round s, I round s → P s)

include h hP

/-! ### Riding and walking -/

/-- The assertions never fail at a position of a pattern, where trips are left and then boarded. -/
theorem same_visit {p : Pattern} {position : Nat} {onBoard : κ} (hs : I (round + 1) s)
    (honBoard : J s onBoard) :
    Same (visit (scheme.asserting P) course p (s, onBoard) position)
      (visit scheme course p (s, onBoard) position)
      fun current => I (round + 1) current.1 ∧ J current.1 current.2 := by
  rw [visit, visit]
  refine (Same.refl fun _ _ => trivial).bind fun stop _ _ => ?_
  refine (Same.refl fun _ _ => trivial).bind fun alights _ _ => ?_
  -- boarding only reads the state
  have hboard : ∀ s, I (round + 1) s ∧ J s onBoard → ∀ current, (do
      let boards ← course.direction.canBoard p position
      if boards && (scheme.reached s).contains stop then
        let arrivals ← scheme.boardable s stop
        let onBoard ← arrivals.foldlM
          (fun onBoard arrival => scheme.board s arrival stop position onBoard) onBoard
        return (s, onBoard)
      else return (s, onBoard)) = .ok current →
      I (round + 1) current.1 ∧ J current.1 current.2 := by
    rintro s ⟨hs, honBoard⟩ current hcurrent
    obtain ⟨boards, -, hcurrent⟩ := bind_eq_ok.mp hcurrent
    split at hcurrent
    case isTrue =>
      obtain ⟨arrivals, harrivals, hcurrent⟩ := bind_eq_ok.mp hcurrent
      obtain ⟨after, hafter, hcurrent⟩ := bind_eq_ok.mp hcurrent
      cases hcurrent
      constructor
      · exact hs
      · apply foldlM_keeps honBoard _ hafter
        intro onBoard arrival hmem honBoard onBoard' hboard
        exact h.board hs honBoard harrivals hmem hboard
    case isFalse =>
      cases hcurrent
      exact ⟨hs, honBoard⟩
  cases alights with
  | true =>
    refine Same.bind (P := fun s => I (round + 1) s ∧ J s onBoard) ?_ fun s _ hs =>
      .refl (hboard s hs)
    exact same_asserted (fun s hs => hP (round + 1) s hs.1) (hP (round + 1) s hs)
      fun s' halight => h.alight hs honBoard halight
  | false => exact .refl (hboard s ⟨hs, honBoard⟩)

/-- The assertions never fail while a pattern is ridden. -/
theorem same_ridePattern {start : PatternId × Nat} (hs : I (round + 1) s) :
    Same (ridePattern (scheme.asserting P) course s start) (ridePattern scheme course s start)
      (I (round + 1)) := by
  rw [ridePattern, ridePattern]
  refine (Same.refl fun _ _ => trivial).bind fun p _ _ => ?_
  refine (Same.refl fun _ _ => trivial).bind fun t _ _ => ?_
  refine .ite (fun _ => .pure hs) fun _ => ?_
  refine Same.bind (P := J s) (.refl fun onBoard henter => h.enter henter)
    fun onBoard _ honBoard => ?_
  refine Same.bind (P := fun current => I (round + 1) current.1 ∧ J current.1 current.2) ?_
    fun current _ hcurrent => .pure hcurrent.1
  exact .foldlM (I := fun current : σ × κ => I (round + 1) current.1 ∧ J current.1 current.2)
    ⟨hs, honBoard⟩ fun current position _ hcurrent => h.same_visit hP hcurrent.1 hcurrent.2

theorem same_transitRound {marks : ScanMarks} (hs : I (round + 1) s) :
    Same (transitRound (scheme.asserting P) course s marks) (transitRound scheme course s marks)
      fun ridden => I (round + 1) ridden.1 := by
  rw [transitRound, transitRound]
  refine (Same.refl fun _ _ => trivial).bind fun marks _ _ => ?_
  refine Same.bind (P := I (round + 1)) ?_ fun s _ hs => .pure hs
  exact .foldlM hs fun s start _ hs => h.same_ridePattern hP hs

theorem same_walkRound (hs : I round s) :
    Same (walkRound (scheme.asserting P) course s) (walkRound scheme course s) (I round) := by
  refine .foldlM hs fun s stop _ hs => ?_
  refine (Same.refl fun _ _ => trivial).bind fun walks _ _ => ?_
  exact same_asserted (hP round) (hP round s hs) fun s' hwalk => h.walk hs hwalk

/-! ### Rounds -/

theorem same_advance (hround : round < course.maxRounds) (hs : I round s) :
    Same ((scheme.asserting P).advance (round + 1) s) (scheme.advance (round + 1) s)
      fun turned => I (round + 1) turned.2 := by
  constructor
  · simp only [asserting, assert_of_holds (hP round s hs)]
    cases hadvance : scheme.advance (round + 1) s with
    | error fault => simp [bind, Except.bind, hadvance]
    | ok turned =>
      have hturned := hP _ _ (h.advance hround hs hadvance)
      simp [bind, Except.bind, hadvance, assert_of_holds hturned, pure, Except.pure]
  · exact fun turned hadvance => h.advance hround hs hadvance

/-- The rounds of an iteration, of which at most `remaining` are left. -/
theorem same_roundsFrom {remaining : Nat} (hremaining : round + remaining = course.maxRounds)
    {progress : Progress σ} (hs : I round progress.state) :
    Same (roundsFrom (scheme.asserting P) course time remaining (round + 1) progress)
      (roundsFrom scheme course time remaining (round + 1) progress)
      fun progress => ∃ round, I round progress.state := by
  induction remaining generalizing round progress with
  | zero => exact .pure ⟨round, hs⟩
  | succ remaining ih =>
    obtain ⟨s, marks, rounds⟩ := progress
    rw [roundsFrom, roundsFrom]
    refine (h.same_advance hP (by omega) hs).bind fun ⟨more, s⟩ _ hs => ?_
    refine .ite (fun _ => .pure ⟨_, hs⟩) fun _ => ?_
    refine (h.same_transitRound hP hs).bind fun ⟨s, marks⟩ _ hs => ?_
    dsimp only at hs ⊢
    have hrest : ∀ s, I (round + 1) s → Same
        (do
          let state ← walkRound (scheme.asserting P) course s
          let state ← (scheme.asserting P).finish state
          let next ← byte (round + 1 + 1)
          roundsFrom (scheme.asserting P) course time remaining next
            ⟨state, marks, max rounds (round + 1)⟩)
        (do
          let state ← walkRound scheme course s
          let state ← scheme.finish state
          let next ← byte (round + 1 + 1)
          roundsFrom scheme course time remaining next ⟨state, marks, max rounds (round + 1)⟩)
        fun progress => ∃ round, I round progress.state := by
      intro s hs
      refine (h.same_walkRound hP hs).bind fun s _ hs => ?_
      refine (same_asserted (hP _) (hP _ s hs) fun s' hfinish => h.finish hs hfinish).bind
        fun s _ hs => ?_
      refine (Same.refl fun next hnext => hnext).bind fun next _ hnext => ?_
      obtain ⟨rfl, -⟩ := (yields_byte _).of_ok hnext
      exact ih (by omega) hs
    by_cases hfirst : round + 1 = 1
    · rw [if_pos hfirst, if_pos hfirst]
      refine Same.bind (P := I (round + 1)) (.foldlM hs fun s leg hleg hs => ?_)
        fun s _ hs => hrest s hs
      rw [hfirst] at hs ⊢
      exact same_asserted (hP 1) (hP 1 s hs) fun s' hseed => h.seedOnBoard hleg hs hseed
    · rw [if_neg hfirst, if_neg hfirst]
      exact hrest s hs

/-! ### Runs -/

/-- The assertions of an iteration never fail. -/
theorem same_iterate {progress : Progress σ} (hs : I round progress.state) :
    Same (iterate (scheme.asserting P) course progress time) (iterate scheme course progress time)
      fun progress => ∃ round, I round progress.state := by
  obtain ⟨s, marks, rounds⟩ := progress
  refine Same.bind (P := I 0) (.foldlM (h.start time hs) fun s leg hleg hs => ?_)
    fun s _ hs => h.same_roundsFrom hP (Nat.zero_add _) hs
  exact same_asserted (hP 0) (hP 0 s hs) fun s' hseed => h.seed hleg hs hseed

/-- The assertions of a run never fail. -/
theorem same_run {deadline : Deadline} {progress : Progress σ} {times : List Time}
    (hs : ∃ round, I round progress.state) :
    Same (run (scheme.asserting P) course deadline progress times)
      (run scheme course deadline progress times) fun progress => ∃ round, I round progress.state :=
  .foldlM hs fun _ _ _ ⟨_, hs⟩ =>
    (Same.refl fun _ _ => trivial).bind fun _ _ _ => h.same_iterate hP hs

end Scheme.Keeps

end JourneyPlanner
