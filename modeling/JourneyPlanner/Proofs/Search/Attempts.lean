import JourneyPlanner.Proofs.Search.Labels
import JourneyPlanner.Proofs.Tariff

/-!
# Sequences of offers

What a sequence of offers within a round changes. Whatever its order, an arrival that is offered is
covered afterwards or hopeless, nothing that was covered is lost, and a label is only displaced by
one that is offered and at least as good.

* `LabelScene.Hopeless`: no journey through an arrival can be better than those found.
* `LabelScene.Offered`: what a sequence of offers changes.
* `Labels.Sound.yields_arrive`: what one offer comes to.
* `LabelScene.Tried`: all labels of a kind have been offered, or better ones of that kind.
-/

namespace JourneyPlanner

namespace LabelScene

/-- No journey through an arrival can be better than those already found. -/
def Hopeless (c : LabelScene) (finishes : Front Finish JourneyCriteria) (round : Nat)
    (stop : StopId) (time : Time) (cost : Cost) : Prop :=
  ∃ bounds, c.bounds = some bounds ∧ ∀ b, bounds.at? stop = some b →
    finishes.covers c.direction.dominatesJourney
      ⟨c.direction.shift time b.duration, min (round + b.transfers) 255 - 1, cost + b.cost⟩ = true

/-- No journey through a label of the current round can be better than those already found. -/
def HopelessLabel (c : LabelScene) (s : Labels) (label : Label) : Prop :=
  c.Hopeless s.finishes label.round label.stop label.time label.cost

end LabelScene

namespace Labels

variable {c : LabelScene} {s s' : Labels} {maxRounds : Nat} {label : Label}

/-- A label that is covered by those of its round and the rounds before it. -/
def CoveredLabel (s : Labels) (d : Direction) (label : Label) : Prop :=
  s.CoveredBy d label.round label.stop label.criteria

/-! ### One offer -/

/-- The check of the fronts of all rounds up to the current one tells whether an arrival is covered.
-/
theorem Sound.isCovered_iff (hs : s.Sound c.direction c.stopCount maxRounds) {stop : StopId}
    {k : StopCriteria} (hstop : stop < c.stopCount) :
    ∃ covered, c.isCovered s stop k = .ok covered ∧
      (covered = true ↔ s.CoveredBy c.direction s.round stop k) := by
  refine ⟨_, yields_anyM (g := fun round => (s.frontAt round stop).covers
    c.direction.dominatesAtStop k) fun round hround => ?_, ?_⟩
  · have := hs.round_le
    rw [hs.front_eq (by rw [List.mem_range] at hround; omega) hstop]
    rfl
  · simp only [List.any_eq_true, List.mem_range, Nat.lt_succ_iff]
    rfl

/-- The check of the bounds and the finishes tells whether an arrival is hopeless. -/
theorem yields_isHopeless {stop : StopId} {time : Time} {cost : Cost} :
    Yields (c.isHopeless s stop time cost) fun hopeless =>
      hopeless = true ↔ c.Hopeless s.finishes s.round stop time cost := by
  unfold LabelScene.isHopeless
  cases hbounds : c.bounds with
  | none => simp [LabelScene.Hopeless, hbounds]
  | some bounds =>
    dsimp only
    cases hat : bounds.at? stop with
    | none => simp [LabelScene.Hopeless, hbounds, hat]
    | some b =>
      have hiff : ∀ covered : Bool, covered = s.finishes.covers c.direction.dominatesJourney
          ⟨c.direction.shift time b.duration, min (s.round + b.transfers) 255 - 1,
            cost + b.cost⟩ →
          (covered = true ↔ c.Hopeless s.finishes s.round stop time cost) := by
        rintro _ rfl
        simp [LabelScene.Hopeless, hbounds, hat]
      refine Yields.ite (fun hempty => hiff false ?_) fun _ => ?_
      · have : s.finishes.entries = [] := by simpa [Front.isEmpty] using hempty
        simp [Front.covers, this]
      · refine Direction.yields_plus.bind ?_
        rintro _ - ⟨rfl, -⟩
        refine (yields_word _).bind ?_
        rintro _ - ⟨rfl, -⟩
        exact hiff _ rfl

/-- What an offer comes to: nothing, because the label is outside the network, covered or hopeless,
or one more label. -/
inductive Outcome (c : LabelScene) (s : Labels) (label : Label) : Labels → Prop
  | outside (h : c.stopCount ≤ label.stop) : Outcome c s label s
  | covered (hstop : label.stop < c.stopCount) (h : s.CoveredLabel c.direction label) :
    Outcome c s label s
  | hopeless (hstop : label.stop < c.stopCount) (h : c.HopelessLabel s label) : Outcome c s label s
  | registered (hstop : label.stop < c.stopCount) (h : ¬s.CoveredLabel c.direction label)
    (hopen : ¬c.HopelessLabel s label) : Outcome c s label (s.register c.direction label)

/-- An arrival comes to nothing or to one more label. -/
theorem Sound.yields_arrive (hs : s.Sound c.direction c.stopCount maxRounds)
    (hnext : s.IsNext label) :
    Yields (c.arrive label.stop label.time label.cost label.origin s) (Outcome c s label) := by
  have hlabel : label = ⟨label.stop, s.round, s.iteration, label.time, label.cost,
      label.origin⟩ := by
    rw [← hnext.round, ← hnext.iteration]
  unfold LabelScene.arrive
  refine Yields.ite (fun h => .outside h) fun hinside => ?_
  have hstop := Nat.lt_of_not_le hinside
  obtain ⟨covered, hcovered, hiff⟩ := hs.isCovered_iff
    (k := ⟨label.time, label.cost, label.origin.onBoard⟩) hstop
  rw [hcovered]
  rw [← hnext.round] at hiff
  refine Yields.ite (c := covered = true) (fun h => .covered hstop (hiff.mp h)) fun hnot => ?_
  refine yields_isHopeless.bind fun hopeless _ hopelessIff => ?_
  rw [← hnext.round] at hopelessIff
  refine Yields.ite (fun h => .hopeless hstop (hopelessIff.mp h)) fun hopen => ?_
  show Outcome c s label (s.register c.direction _)
  rw [← hlabel]
  exact .registered hstop (fun h => hnot (hiff.mpr h)) fun h => hopen (hopelessIff.mpr h)

theorem Outcome.sound (h : Outcome c s label s') (hs : s.Sound c.direction c.stopCount maxRounds)
    (hnext : s.IsNext label) : s'.Sound c.direction c.stopCount maxRounds := by
  cases h with
  | outside | covered | hopeless => exact hs
  | registered hstop hcovered _ =>
    refine hs.register hnext hstop fun h => hcovered ?_
    rwa [CoveredLabel, hnext.round]

end Labels

namespace LabelScene

variable {c : LabelScene} {s s' s'' : Labels} {maxRounds : Nat} {attempts : List Label}
  {label : Label}

/-! ### Many offers -/

/-- What a sequence of offers in a round changes. -/
structure Offered (c : LabelScene) (attempts : List Label) (s s' : Labels) : Prop where
  kept : ∀ {id : LabelId} {l : Label}, s.arena[id]? = some l → s'.arena[id]? = some l
  added : ∀ {id : LabelId} {l : Label}, s'.arena[id]? = some l →
    s.arena[id]? = some l ∨ (l ∈ attempts ∧ s.arena.size ≤ id)
  frontAt_of_ne : ∀ {round : Nat} (stop : StopId),
    round ≠ s.round → s'.frontAt round stop = s.frontAt round stop
  held : ∀ {id : LabelId} {l : Label}, s'.Holds id l →
    s.Holds id l ∨ (l ∈ attempts ∧ ¬s.CoveredLabel c.direction l)
  hopeful : ∀ {id : LabelId} {l : Label}, s'.Holds id l → s.Holds id l ∨ ¬c.HopelessLabel s l
  covered : ∀ {round : Nat} {stop : StopId} {k : StopCriteria},
    s.CoveredBy c.direction round stop k →
    s'.CoveredBy c.direction round stop k
  attempted : ∀ l ∈ attempts, l.stop < c.stopCount →
    s'.CoveredLabel c.direction l ∨ c.HopelessLabel s l
  displaced : ∀ {id : LabelId} {l : Label}, s.Holds id l → s'.Holds id l ∨
    ∃ id' l', s'.Holds id' l' ∧ l' ∈ attempts ∧ ¬s.CoveredLabel c.direction l' ∧
      l'.stop = l.stop ∧ l'.round = l.round ∧
      c.direction.dominatesAtStop l'.criteria l.criteria = true
  finishes_eq : s'.finishes = s.finishes
  round_eq : s'.round = s.round
  iteration_eq : s'.iteration = s.iteration
  reached_eq : s'.reached = s.reached

namespace Offered

theorem refl (c : LabelScene) (s : Labels) : c.Offered [] s s where
  kept := id
  added := .inl
  frontAt_of_ne _ _ := rfl
  held := .inl
  hopeful := .inl
  covered := id
  attempted := by simp
  displaced := .inl
  finishes_eq := rfl
  round_eq := rfl
  iteration_eq := rfl
  reached_eq := rfl

theorem size_le (h : c.Offered attempts s s') : s.arena.size ≤ s'.arena.size := by
  by_contra hlt
  have hlast := Array.getElem?_eq_getElem (Nat.lt_of_not_le hlt)
  have := (Array.getElem?_eq_some_iff.mp (h.kept hlast)).1
  omega

/-- The labels of other rounds are held before and after. -/
theorem holds_iff_of_ne (h : c.Offered attempts s s')
    (hs : s.Sound c.direction c.stopCount maxRounds)
    {id : LabelId} {l : Label} (hround : l.round ≠ s.round) : s'.Holds id l ↔ s.Holds id l := by
  rw [Labels.Holds, Labels.Holds, h.frontAt_of_ne _ hround]
  refine and_congr_left fun hentry => ⟨fun harena => ?_, h.kept⟩
  obtain ⟨found, hfound, -⟩ := hs.entry hentry
  rw [← Option.some.inj ((h.kept hfound).symm.trans harena)]
  exact hfound

/-- A label that is outside, covered or hopeless changes nothing. -/
theorem skip (hskip : label.stop < c.stopCount →
    s.CoveredLabel c.direction label ∨ c.HopelessLabel s label) : c.Offered [label] s s :=
  { refl c s with
    added := .inl
    held := .inl
    attempted := by
      intro l hl
      obtain rfl := List.mem_singleton.mp hl
      exact hskip
    displaced := .inl }

/-- A label that is registered. -/
theorem register (hs : s.Sound c.direction c.stopCount maxRounds) (hnext : s.IsNext label)
    (hstop : label.stop < c.stopCount) (hcovered : ¬s.CoveredLabel c.direction label)
    (hopen : ¬c.HopelessLabel s label) : c.Offered [label] s (s.register c.direction label) where
  kept := Labels.register_kept
  added := by
    intro id l hl
    rcases Labels.register_cases hl with hl | ⟨rfl, rfl⟩
    · exact .inl hl
    · exact .inr ⟨by simp, le_rfl⟩
  frontAt_of_ne := by
    intro round stop hround
    rw [hs.frontAt_register hstop, if_neg fun hplace => hround hplace.1]
  held := by
    intro id l hl
    rcases (hs.holds_register hnext hstop).mp hl with ⟨-, rfl⟩ | ⟨hl, -⟩
    · exact .inr ⟨by simp, hcovered⟩
    · exact .inl hl
  hopeful := by
    intro id l hl
    rcases (hs.holds_register hnext hstop).mp hl with ⟨-, rfl⟩ | ⟨hl, -⟩
    · exact .inr hopen
    · exact .inl hl
  covered := hs.coveredBy_register hstop
  attempted := by
    intro l hl _
    obtain rfl := List.mem_singleton.mp hl
    refine .inl ?_
    rw [Labels.CoveredLabel, hnext.round]
    exact hs.coveredBy_register_self hstop
  displaced := by
    intro id l hl
    by_cases hplace : l.round = s.round ∧ l.stop = label.stop ∧
        c.direction.dominatesAtStop label.criteria l.criteria = true
    · obtain ⟨hround, hlstop, hdom⟩ := hplace
      exact .inr ⟨_, label, (hs.holds_register hnext hstop).mpr (.inl ⟨rfl, rfl⟩), by simp,
        hcovered, hlstop.symm, hnext.round.trans hround.symm, hdom⟩
    · refine .inl ((hs.holds_register hnext hstop).mpr (.inr ⟨hl, fun hround hlstop => ?_⟩))
      rw [Bool.eq_false_iff]
      exact fun hdom => hplace ⟨hround, hlstop, hdom⟩
  finishes_eq := rfl
  round_eq := rfl
  iteration_eq := rfl
  reached_eq := rfl

/-- One offer after the other. -/
theorem trans {others : List Label} (h : c.Offered attempts s s') (h' : c.Offered others s' s'') :
    c.Offered (attempts ++ others) s s'' where
  kept hl := h'.kept (h.kept hl)
  added := by
    intro id l hl
    rcases h'.added hl with hl | ⟨hmem, hsize⟩
    · exact (h.added hl).imp_right (And.imp_left (List.mem_append_left _))
    · exact .inr ⟨List.mem_append_right _ hmem, h.size_le.trans hsize⟩
  frontAt_of_ne stop hround := by
    rw [h'.frontAt_of_ne stop (by rwa [h.round_eq]), h.frontAt_of_ne stop hround]
  held := by
    intro id l hl
    rcases h'.held hl with hl | ⟨hmem, hcovered⟩
    · exact (h.held hl).imp_right (And.imp_left (List.mem_append_left _))
    · exact .inr ⟨List.mem_append_right _ hmem, fun hcovers => hcovered (h.covered hcovers)⟩
  hopeful := by
    intro id l hl
    rcases h'.hopeful hl with hl | hopen
    · exact h.hopeful hl
    · rw [HopelessLabel, h.finishes_eq] at hopen
      exact .inr hopen
  covered hcovers := h'.covered (h.covered hcovers)
  attempted := by
    intro l hl hstop
    rcases List.mem_append.mp hl with hl | hl
    · exact (h.attempted l hl hstop).imp_left h'.covered
    · refine (h'.attempted l hl hstop).imp_right fun hhopeless => ?_
      rwa [HopelessLabel, h.finishes_eq] at hhopeless
  displaced := by
    intro id l hl
    rcases h.displaced hl with hl | ⟨id₁, l₁, hl₁, hmem, hcovered, hstop, hround, hdom⟩
    · rcases h'.displaced hl with hl | ⟨id₂, l₂, hl₂, hmem, hcovered, hrest⟩
      · exact .inl hl
      · exact .inr ⟨id₂, l₂, hl₂, List.mem_append_right _ hmem,
          fun hcovers => hcovered (h.covered hcovers), hrest⟩
    · rcases h'.displaced hl₁ with hl₁ | ⟨id₂, l₂, hl₂, hmem₂, hcovered₂, hstop₂, hround₂, hdom₂⟩
      · exact .inr ⟨id₁, l₁, hl₁, List.mem_append_left _ hmem, hcovered, hstop, hround, hdom⟩
      · exact .inr ⟨id₂, l₂, hl₂, List.mem_append_right _ hmem₂,
          fun hcovers => hcovered₂ (h.covered hcovers), hstop₂.trans hstop, hround₂.trans hround,
          c.direction.dominatesAtStop_isOrder.trans hdom₂ hdom⟩
  finishes_eq := h'.finishes_eq.trans h.finishes_eq
  round_eq := h'.round_eq.trans h.round_eq
  iteration_eq := h'.iteration_eq.trans h.iteration_eq
  reached_eq := h'.reached_eq.trans h.reached_eq

end Offered

end LabelScene

/-- What one offer changes. -/
theorem Labels.Outcome.offered {c : LabelScene} {s s' : Labels} {maxRounds : Nat} {label : Label}
    (hout : Labels.Outcome c s label s') (hs : s.Sound c.direction c.stopCount maxRounds)
    (hnext : s.IsNext label) : c.Offered [label] s s' := by
  cases hout with
  | outside houtside => exact .skip fun hstop => absurd hstop (Nat.not_lt.mpr houtside)
  | covered hstop hcovered => exact .skip fun _ => .inl hcovered
  | hopeless hstop hhopeless => exact .skip fun _ => .inr hhopeless
  | registered hstop hcovered hopen => exact .register hs hnext hstop hcovered hopen

/-! ### All labels of a kind -/

/-- A label of the same place that arrives no later and, where rides cost, is no dearer. -/
structure Label.Better (c : LabelScene) (better label : Label) : Prop where
  stop : better.stop = label.stop
  round : better.round = label.round
  iteration : better.iteration = label.iteration
  onBoard : better.onBoard = label.onBoard
  time : c.direction.NoLater better.time label.time
  cost : c.tariff.RidesCost → better.cost ≤ label.cost

namespace Label.Better

variable {c : LabelScene} {better label : Label}

theorem refl : label.Better c label :=
  ⟨rfl, rfl, rfl, rfl, Direction.NoLater.refl, fun _ => le_rfl⟩

theorem trans {best : Label} (h : best.Better c better) (h' : better.Better c label) :
    best.Better c label where
  stop := h.stop.trans h'.stop
  round := h.round.trans h'.round
  iteration := h.iteration.trans h'.iteration
  onBoard := h.onBoard.trans h'.onBoard
  time := h.time.trans h'.time
  cost hcost := (h.cost hcost).trans (h'.cost hcost)

/-- A label that is better is also at least as good in the comparison at its stop. -/
theorem dominates (h : better.Better c label) (hcost : c.tariff.RidesCost) :
    c.direction.dominatesAtStop better.criteria label.criteria = true :=
  Direction.dominatesAtStop_iff.mpr ⟨h.time, h.cost hcost, fun honBoard => h.onBoard.trans honBoard⟩

end Label.Better

namespace LabelScene

/-- All labels of a kind have been tried, by offering labels of that kind: each of them itself, or
one that is at least as good. -/
structure Tried (c : LabelScene) (maxRounds : Nat) (kind : Label → Prop) (s s' : Labels) :
    Prop where
  sound : s'.Sound c.direction c.stopCount maxRounds
  offered : ∃ attempts, c.Offered attempts s s' ∧ (∀ l ∈ attempts, kind l) ∧
    ∀ l, kind l → ∃ l' ∈ attempts, l'.Better c l

namespace Tried

variable {c : LabelScene} {s s' s'' : Labels} {maxRounds : Nat} {kind kind' : Label → Prop}
  {label : Label}

/-- Where there is no label of a kind, all of them have been tried. -/
theorem none (hs : s.Sound c.direction c.stopCount maxRounds) (hkind : ∀ l, ¬kind l) :
    c.Tried maxRounds kind s s :=
  ⟨hs, [], .refl c s, by simp, fun l hl => absurd hl (hkind l)⟩

/-- An offer tries its label. -/
theorem one (hs : s.Sound c.direction c.stopCount maxRounds) (hnext : s.IsNext label)
    (hout : Labels.Outcome c s label s') : c.Tried maxRounds (· = label) s s' := by
  refine ⟨hout.sound hs hnext, [label], hout.offered hs hnext, by simp, ?_⟩
  rintro l rfl
  exact ⟨l, by simp, .refl⟩

/-- What was tried first and what was tried next has been tried after both. -/
theorem trans (h : c.Tried maxRounds kind s s') (h' : c.Tried maxRounds kind' s' s'') :
    c.Tried maxRounds (fun l => kind l ∨ kind' l) s s'' := by
  obtain ⟨attempts, hoffered, hmade, hwanted⟩ := h.offered
  obtain ⟨attempts', hoffered', hmade', hwanted'⟩ := h'.offered
  refine ⟨h'.sound, attempts ++ attempts', hoffered.trans hoffered', fun l hl => ?_, ?_⟩
  · exact (List.mem_append.mp hl).imp (hmade l) (hmade' l)
  · rintro l (hl | hl)
    · obtain ⟨better, hmem, hbetter⟩ := hwanted l hl
      exact ⟨better, List.mem_append_left _ hmem, hbetter⟩
    · obtain ⟨better, hmem, hbetter⟩ := hwanted' l hl
      exact ⟨better, List.mem_append_right _ hmem, hbetter⟩

/-- Labels of a wider kind have been tried if there is a better one of the kind for each of them. -/
theorem widen (h : c.Tried maxRounds kind s s') (hkind : ∀ l, kind l → kind' l)
    (hbetter : ∀ l, kind' l → ∃ l', kind l' ∧ l'.Better c l) : c.Tried maxRounds kind' s s' := by
  obtain ⟨attempts, hoffered, hmade, hwanted⟩ := h.offered
  refine ⟨h.sound, attempts, hoffered, fun l hl => hkind l (hmade l hl), fun l hl => ?_⟩
  obtain ⟨l', hl', hll'⟩ := hbetter l hl
  obtain ⟨l'', hmem, hl''⟩ := hwanted l' hl'
  exact ⟨l'', hmem, hl''.trans hll'⟩

theorem congr (h : c.Tried maxRounds kind s s') (hkind : ∀ l, kind l ↔ kind' l) :
    c.Tried maxRounds kind' s s' :=
  h.widen (fun l => (hkind l).mp) fun l hl => ⟨l, (hkind l).mpr hl, .refl⟩

theorem round_eq (h : c.Tried maxRounds kind s s') : s'.round = s.round := by
  obtain ⟨_, hoffered, -⟩ := h.offered
  exact hoffered.round_eq

theorem iteration_eq (h : c.Tried maxRounds kind s s') : s'.iteration = s.iteration := by
  obtain ⟨_, hoffered, -⟩ := h.offered
  exact hoffered.iteration_eq

theorem finishes_eq (h : c.Tried maxRounds kind s s') : s'.finishes = s.finishes := by
  obtain ⟨_, hoffered, -⟩ := h.offered
  exact hoffered.finishes_eq

theorem reached_eq (h : c.Tried maxRounds kind s s') : s'.reached = s.reached := by
  obtain ⟨_, hoffered, -⟩ := h.offered
  exact hoffered.reached_eq

theorem kept (h : c.Tried maxRounds kind s s') {id : LabelId} {l : Label}
    (hl : s.arena[id]? = some l) : s'.arena[id]? = some l := by
  obtain ⟨_, hoffered, -⟩ := h.offered
  exact hoffered.kept hl

theorem size_le (h : c.Tried maxRounds kind s s') : s.arena.size ≤ s'.arena.size := by
  obtain ⟨_, hoffered, -⟩ := h.offered
  exact hoffered.size_le

/-- The labels of the rounds before are held before and after. -/
theorem holds_iff_of_ne (h : c.Tried maxRounds kind s s')
    (hs : s.Sound c.direction c.stopCount maxRounds) {id : LabelId} {l : Label}
    (hround : l.round ≠ s.round) : s'.Holds id l ↔ s.Holds id l := by
  obtain ⟨_, hoffered, -⟩ := h.offered
  exact hoffered.holds_iff_of_ne hs hround

/-- A loop tries what each of its turns tries. -/
theorem foldlM {ξ : Type} {f : Labels → ξ → Checked Labels} {K : ξ → Label → Prop}
    {xs : List ξ} (hs : s.Sound c.direction c.stopCount maxRounds)
    (hf : ∀ x ∈ xs, ∀ s₁ kind, c.Tried maxRounds kind s s₁ →
      Yields (f s₁ x) (c.Tried maxRounds (K x) s₁)) :
    Yields (xs.foldlM f s) (c.Tried maxRounds (fun l => ∃ x ∈ xs, K x l) s) := by
  refine Yields.foldlM_done (I := fun done => c.Tried maxRounds (fun l => ∃ x ∈ done, K x l) s)
    (.none hs (by simp)) fun done x s₁ ⟨rest, hrest⟩ hdone => ?_
  refine (hf x (by simp [hrest]) s₁ _ hdone).mono fun s₂ _ hstep => ?_
  refine (hdone.trans hstep).congr fun l => ?_
  simp only [List.mem_append, List.mem_singleton, or_and_right, exists_or, exists_eq_left]

end Tried

end LabelScene

end JourneyPlanner
