import JourneyPlanner.Proofs.Search.Twins

/-!
# The order of legs

What a round does is said of all its rides, legs and walks together, and not of their order, so one
search may leave many states: of two labels that are as good as each other the first one stays, and
it is the one that others follow. All of these states are alike: they hold labels that differ only
in where they come from, and their finishes have the same criteria. In particular nothing depends on
the order in which the legs are listed.

* `LabelScene.Alike`: states that hold the same labels up to where these come from.
* `LabelScene.Alike.tried`: trying the same labels in any order leaves states alike.
* `LabelScene.Iterations.alike`: so do the iterations from the same start times.
* `LabelScene.Iterations.reordered`: the order of the legs is not seen by iterations.
-/

namespace JourneyPlanner

namespace LabelScene

/-- Two states in the same round hold labels that differ only in where they come from, and their
finishes are better than the same journeys. -/
structure Alike (c : LabelScene) (maxRounds : Nat) (s s' : Labels) : Prop where
  left : s.Sound c.direction c.stopCount maxRounds
  right : s'.Sound c.direction c.stopCount maxRounds
  round_eq : s.round = s'.round
  iteration_eq : s.iteration = s'.iteration
  covers_iff : ∀ k, s.finishes.covers c.direction.dominatesJourney k = true ↔
    s'.finishes.covers c.direction.dominatesJourney k = true
  forth : Label.Copied (fun _ => False) s.Held s'.Held
  back : Label.Copied (fun _ => False) s'.Held s.Held

variable {c : LabelScene} {course : Course} {s s' s₁ s₁' : Labels} {maxRounds : Nat}
  {kind kind' : Label → Prop} {l m : Label}

/-- What covers nothing that leads to better journeys does not lead to better ones either. -/
theorem HopelessLabel.covered (h : c.HopelessLabel s l) (hcovers : l.Covers c.direction m) :
    c.HopelessLabel s m := by
  obtain ⟨bounds, hbounds, hfound⟩ := h
  obtain ⟨htime, hcost, -⟩ := Direction.dominatesAtStop_iff.mp hcovers.dominates
  refine ⟨bounds, hbounds, fun bound hat => ?_⟩
  rw [← hcovers.stop] at hat
  refine Front.covers_trans c.direction.dominatesJourney_isOrder.1 (hfound bound hat)
    (Direction.dominatesJourney_iff.mpr ⟨htime.shift le_rfl, ?_, Int.add_le_add_right hcost _⟩)
  have := hcovers.round
  show min (l.round + bound.transfers) 255 - 1 ≤ min (m.round + bound.transfers) 255 - 1
  omega

namespace Alike

theorem symm (h : c.Alike maxRounds s s') : c.Alike maxRounds s' s :=
  ⟨h.right, h.left, h.round_eq.symm, h.iteration_eq.symm, fun k => (h.covers_iff k).symm, h.back,
    h.forth⟩

theorem refl (hs : s.Sound c.direction c.stopCount maxRounds) : c.Alike maxRounds s s :=
  ⟨hs, hs, rfl, rfl, fun _ => Iff.rfl, fun l hl => .inr ⟨l, hl, .refl l⟩,
    fun l hl => .inr ⟨l, hl, .refl l⟩⟩

/-- States that are alike leave the same labels without hope. -/
theorem hopeless_iff (h : c.Alike maxRounds s s') :
    c.HopelessLabel s l ↔ c.HopelessLabel s' l := by
  simp only [HopelessLabel, Hopeless, h.covers_iff]

end Alike

/-! ### Labels that are tried -/

/-- Labels of two kinds, each with twins of the other, are tried in states that are alike. -/
structure Tries (c : LabelScene) (maxRounds : Nat) (kind kind' : Label → Prop)
    (s s' s₁ s₁' : Labels) : Prop where
  before : c.Alike maxRounds s s'
  left : c.Tried maxRounds kind s s₁
  right : c.Tried maxRounds kind' s' s₁'
  forth : Label.Copied (fun _ => False) kind kind'
  back : Label.Copied (fun _ => False) kind' kind
  left_current : ∀ l, kind l → l.iteration = s.iteration
  right_current : ∀ l, kind' l → l.iteration = s'.iteration

namespace Tries

theorem symm (h : c.Tries maxRounds kind kind' s s' s₁ s₁') :
    c.Tries maxRounds kind' kind s' s s₁' s₁ :=
  ⟨h.before.symm, h.right, h.left, h.back, h.forth, h.right_current, h.left_current⟩

/-- What bounds leave out is lost in both states. -/
theorem sideBySide (h : c.Tries maxRounds kind kind' s s' s₁ s₁') (hcosts : c.tariff.RidesCost) :
    c.SideBySide maxRounds c.bounds c.bounds (c.HopelessLabel s) kind kind' s s' s₁ s₁' where
  costs := hcosts
  sound := h.before.left
  sound' := h.before.right
  round_eq := h.before.round_eq
  iteration_eq := h.before.iteration_eq
  tried := h.left
  tried' := h.right
  held _ hl := .inr ((h.before.forth hl).resolve_left id)
  held' _ hl := .inr ((h.before.back hl).resolve_left id)
  made _ hl := .inr ((h.forth hl).resolve_left id)
  made' _ hl := .inr ((h.back hl).resolve_left id)
  current := h.left_current
  current' := h.right_current
  covered _ _ hhopeless := hhopeless.covered
  hopeless _ := id
  hopeless' _ := h.before.hopeless_iff.mpr

/-- Where a label stays held its twin does too: what displaces the twin is new, so bounds do not
leave it out, and it has a twin that would displace the label. -/
theorem kept (h : c.Tries maxRounds kind kind' s s' s₁ s₁') (hcosts : c.tariff.RidesCost)
    (hl : s₁.Held l) (hm : s'.Held m) (htwin : l.Twin m) : s₁'.Held m := by
  rcases h.right.kept_or_displaced (b := c.bounds) h.before.right hm with
    hkept | ⟨n, hn, hcovers, -, hfresh, hopen, hround⟩
  · exact hkept
  exfalso
  obtain ⟨n', hn', hntwin⟩ := ((h.symm.sideBySide hcosts).copied hn).resolve_left hopen
  have hcovers' : n'.Covers c.direction l :=
    hntwin.symm.covers.trans (hcovers.trans htwin.symm.covers)
  have hlround : l.round = s.round := htwin.round.trans (hround.trans h.before.round_eq.symm)
  rcases h.left.held_of_covers (b := c.bounds) h.before.left hn' hl hcovers' hlround with
    hbefore | rfl
  · obtain ⟨k, hk, hktwin⟩ := (h.before.forth hbefore).resolve_left id
    exact hfresh (hk.covers (hktwin.symm.covers.trans hntwin.symm.covers))
  · exact hfresh (hm.covers (htwin.symm.covers.trans hntwin.symm.covers))

/-- After both have tried their labels, each holds twins of the labels of the other. -/
theorem copied (h : c.Tries maxRounds kind kind' s s' s₁ s₁') (hcosts : c.tariff.RidesCost) :
    Label.Copied (fun _ => False) s₁.Held s₁'.Held := by
  intro l hl
  refine .inr ?_
  rcases h.left.held_cases (b := c.bounds) h.before.left hl with hbefore | ⟨-, -, hopen, -⟩
  · obtain ⟨m, hm, htwin⟩ := (h.before.forth hbefore).resolve_left id
    exact ⟨m, h.kept hcosts hl hm htwin, htwin⟩
  · exact ((h.sideBySide hcosts).copied hl).resolve_left hopen

/-- States that are alike stay alike. -/
theorem alike (h : c.Tries maxRounds kind kind' s s' s₁ s₁') (hcosts : c.tariff.RidesCost) :
    c.Alike maxRounds s₁ s₁' where
  left := h.left.sound
  right := h.right.sound
  round_eq := by rw [h.left.round_eq, h.right.round_eq, h.before.round_eq]
  iteration_eq := by rw [h.left.iteration_eq, h.right.iteration_eq, h.before.iteration_eq]
  covers_iff := by
    rw [h.left.finishes_eq, h.right.finishes_eq]
    exact h.before.covers_iff
  forth := h.copied hcosts
  back := h.symm.copied hcosts

end Tries

/-! ### Runs -/

/-- All that a search does keeps states alike. -/
theorem lockstep_alike (hrules : c.rules = none) (hcosts : c.tariff.RidesCost) :
    c.Lockstep course c.bounds c.bounds (c.Alike course.maxRounds) where
  round_eq h := h.round_eq
  iteration_eq h := h.iteration_eq
  turn h hlt :=
    ⟨h.left.turn hlt, h.right.turn (h.round_eq ▸ hlt), congrArg (· + 1) h.round_eq, h.iteration_eq,
      h.covers_iff, h.forth, h.back⟩
  start time h :=
    ⟨h.left.start time, h.right.start time, rfl, congrArg (· + 1) h.iteration_eq, h.covers_iff,
      h.forth, h.back⟩
  gained h hgained hgained' :=
    ⟨h.left.withFinishes _, h.right.withFinishes _, h.round_eq, h.iteration_eq,
      fun _ => ⟨covers_gained h.forth h.round_eq h.iteration_eq (fun k => (h.covers_iff k).mp)
        (fun _ _ _ => False.elim) hgained hgained',
        covers_gained h.back h.symm.round_eq h.symm.iteration_eq (fun k => (h.covers_iff k).mpr)
        (fun _ _ _ => False.elim) hgained' hgained⟩, h.forth, h.back⟩
  rides h rides rides' := Tries.alike ⟨h, rides, rides',
    copied_rides hrules h.forth h.round_eq h.iteration_eq fun _ _ _ => False.elim,
    copied_rides hrules h.back h.symm.round_eq h.symm.iteration_eq fun _ _ _ => False.elim,
    fun _ ⟨_, hl⟩ => hl.iteration_eq, fun _ ⟨_, hl⟩ => hl.iteration_eq⟩ hcosts
  seeds h hkind seeds seeds' := Tries.alike ⟨h, seeds, seeds', fun l hl => .inr ⟨l, hl, .refl l⟩,
    fun l hl => .inr ⟨l, hl, .refl l⟩, hkind, fun l hl => (hkind l hl).trans h.iteration_eq⟩ hcosts
  walks h walks walks' := Tries.alike ⟨h, walks, walks',
    copied_walks h.forth h.round_eq h.iteration_eq fun _ _ _ => False.elim,
    copied_walks h.back h.symm.round_eq h.symm.iteration_eq fun _ _ _ => False.elim,
    fun _ hl => hl.iteration_eq, fun _ hl => hl.iteration_eq⟩ hcosts

/-- All that the iterations from the same start times may lead to is alike. -/
theorem Iterations.alike {times : List Time} (hall : c.Iterations course s times s₁)
    (hall' : c.Iterations course s' times s₁') (h : c.Alike course.maxRounds s s')
    (hrules : c.rules = none) (hcosts : c.tariff.RidesCost) :
    c.Alike course.maxRounds s₁ s₁' :=
  (lockstep_alike hrules hcosts).iterations hall hall' h

/-- The finishes of states that are alike have the same criteria. -/
theorem Alike.exists_finish (h : c.Alike maxRounds s s')
    (hclean : s.finishes.Clean c.direction.dominatesJourney) {e : Finish × JourneyCriteria}
    (he : e ∈ s.finishes.entries) : ∃ e' ∈ s'.finishes.entries, e'.2 = e.2 :=
  Front.exists_criteria c.direction.dominatesJourney_isOrder hclean
    (fun k => (h.covers_iff k).mp) (fun k => (h.covers_iff k).mpr) he

/-! ### The order of the legs -/

variable {egress access : List Connector} {attempts : List Label} {time : Time}

/-- Where the search ends does not matter to what is offered, -/
theorem Offered.reordered (h : ({ c with egress } : LabelScene).Offered attempts s s') :
    c.Offered attempts s s' :=
  { h with }

/-- nor to what is tried. -/
theorem Tried.reordered (h : ({ c with egress } : LabelScene).Tried maxRounds kind s s') :
    c.Tried maxRounds kind s s' := by
  obtain ⟨attempts, hoffered, hmade, hwanted⟩ := h.offered
  refine ⟨h.sound, attempts, hoffered.reordered, hmade, fun l hl => ?_⟩
  obtain ⟨l', hl', hbetter⟩ := hwanted l hl
  exact ⟨l', hl', { hbetter with }⟩

theorem DecidesOn.reordered {net : Network} {i : PatternId}
    (h : ({ c with egress } : LabelScene).DecidesOn net s i) : c.DecidesOn net s i :=
  fun _ _ _ hp ht hsize _ _ hboardable => h hp ht hsize { hboardable with }

theorem finishesWith_reordered (hegress : ∀ leg, leg ∈ egress ↔ leg ∈ c.egress)
    (e : Finish × JourneyCriteria) :
    ({ c with egress } : LabelScene).FinishesWith s e ↔ c.FinishesWith s e := by
  simp only [FinishesWith, FinishesAt, hegress]
  rfl

theorem mem_onBoardAccess_reordered (haccess : ∀ leg, leg ∈ access ↔ leg ∈ course.access)
    (leg : Connector) :
    leg ∈ ({ course with access } : Course).onBoardAccess ↔ leg ∈ course.onBoardAccess := by
  simp only [Course.onBoardAccess, List.mem_filter, haccess]

theorem mem_walkingAccess_reordered (haccess : ∀ leg, leg ∈ access ↔ leg ∈ course.access)
    (leg : Connector) :
    leg ∈ ({ course with access } : Course).walkingAccess ↔ leg ∈ course.walkingAccess := by
  simp only [Course.walkingAccess, List.mem_filter, haccess]

/-- A round does not depend on the order of the legs at its start and at its end. -/
theorem Round.reordered (h : ({ c with egress } : LabelScene).Round { course with access } time s s')
    (hegress : ∀ leg, leg ∈ egress ↔ leg ∈ c.egress)
    (haccess : ∀ leg, leg ∈ access ↔ leg ∈ course.access) : c.Round course time s s' := by
  cases h with
  | mk opening rides seeds walks ending decides =>
    exact .mk (opening.congr fun e => and_congr_right fun _ => finishesWith_reordered hegress e)
      rides.reordered
      (seeds.reordered.congr fun l => and_congr_right fun _ => exists_congr fun leg =>
        and_congr_left fun _ => mem_onBoardAccess_reordered haccess leg)
      walks.reordered (ending.congr (finishesWith_reordered hegress))
      fun i => (decides i).reordered

/-- Rounds do not depend on the order of the legs. -/
theorem Rounds.reordered {count : Nat}
    (h : ({ c with egress } : LabelScene).Rounds { course with access } time s count s')
    (hegress : ∀ leg, leg ∈ egress ↔ leg ∈ c.egress)
    (haccess : ∀ leg, leg ∈ access ↔ leg ∈ course.access) : c.Rounds course time s count s' := by
  induction h with
  | zero => exact .zero
  | succ _ last ih => exact ih.succ (last.reordered hegress haccess)

/-- The order of the legs of a search is not seen by what its iterations do. -/
theorem Iterations.reordered {times : List Time}
    (h : ({ c with egress } : LabelScene).Iterations { course with access } s times s')
    (hegress : ∀ leg, leg ∈ egress ↔ leg ∈ c.egress)
    (haccess : ∀ leg, leg ∈ access ↔ leg ∈ course.access) : c.Iterations course s times s' := by
  induction h with
  | nil => exact .nil
  | snoc _ seeds rounds ends ih =>
    refine ih.snoc (seeds.reordered.congr fun l => ?_) (rounds.reordered hegress haccess) ends
    exact exists_congr fun leg => and_congr_left fun _ => mem_walkingAccess_reordered haccess leg

end LabelScene

end JourneyPlanner
