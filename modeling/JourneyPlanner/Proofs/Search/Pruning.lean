import JourneyPlanner.Proofs.Search.Twins

/-!
# Searches with different bounds

A label that bounds leave out does not displace others, so two searches that differ in their bounds
hold different labels. But what bounds leave out is doomed: nothing that can follow it is better
than what has been found. What comes after a doomed label is doomed too, and so is every label that
it is at least as good as. Up to doomed labels the two searches hold labels with the same criteria,
and so their finishes have the same criteria.

* `LabelScene.Doomed`: nothing that can follow a label is better than what has been found.
* `LabelScene.doomed_of_hopeless`: what bounds leave out is doomed.
* `LabelScene.Parallel`: up to doomed labels two states hold labels that differ only in where they
  come from.
* `LabelScene.Plain.lockstep`: what a round does keeps states parallel.
* `LabelScene.Iterations.parallel`: so they are after any number of iterations.
-/

namespace JourneyPlanner

namespace LabelScene

/-- A search without rules in which all ways to the end are short and slacks and prices are not
negative. -/
structure Plain (c : LabelScene) (course : Course) : Prop where
  sound : course.network.Sound
  scene : c.Of course.network
  direction_eq : course.direction = c.direction
  rules_eq : c.rules = none
  slacks : c.slacks.Nonneg
  tariff : c.tariff.Nonneg
  walks : ∀ leg ∈ c.egress, leg.onBoard = false
  brief : c.Brief course.network

/-- Bounds, if there are any, are below everything that remains. -/
def Admits (c : LabelScene) (course : Course) (b : Option Bounds) : Prop :=
  ∀ bounds, b = some bounds → bounds.Below course c.tariff c.rules c.egress

/-- Nothing that can follow a label is better than what has been found. -/
def Doomed (c : LabelScene) (course : Course) (finishes : Front Finish JourneyCriteria)
    (l : Label) : Prop :=
  ∀ ⦃rides : Nat⦄ ⦃duration : Span⦄ ⦃cost : Cost⦄ ⦃ending : Time⦄,
    c.OnwardFrom course.network l rides duration cost ending → course.Allows (l.round + rides) →
    finishes.covers c.direction.dominatesJourney
      ⟨ending, min (l.round + rides) 255 - 1, l.cost + cost⟩ = true

/-- Each label of a kind is doomed or has a twin of another kind. -/
def Copies (c : LabelScene) (course : Course) (finishes : Front Finish JourneyCriteria)
    (kind kind' : Label → Prop) : Prop :=
  ∀ ⦃l : Label⦄, kind l → c.Doomed course finishes l ∨ ∃ m, kind' m ∧ l.Twin m

/-- A state has finishes as good as those of another one, and holds twins of its labels that are not
doomed. -/
structure Mirrors (c : LabelScene) (course : Course) (s s' : Labels) : Prop where
  finishes : ∀ ⦃k : JourneyCriteria⦄, s.finishes.covers c.direction.dominatesJourney k = true →
    s'.finishes.covers c.direction.dominatesJourney k = true
  held : c.Copies course s.finishes s.Held s'.Held

/-- Two states in the same round mirror each other. -/
structure Parallel (c : LabelScene) (course : Course) (s s' : Labels) : Prop where
  left : s.Sound c.direction c.stopCount course.maxRounds
  right : s'.Sound c.direction c.stopCount course.maxRounds
  round_eq : s.round = s'.round
  iteration_eq : s.iteration = s'.iteration
  forth : c.Mirrors course s s'
  back : c.Mirrors course s' s

variable {c : LabelScene} {course : Course} {b b' : Option Bounds} {s s' s₁ s₁' : Labels}
  {finishes finishes' : Front Finish JourneyCriteria} {kind kind' : Label → Prop}
  {id id' : LabelId} {l m n : Label} {time : Time}

/-! ### Doomed labels -/

namespace Doomed

/-- A label stays doomed while finishes get better. -/
theorem mono (h : c.Doomed course finishes l)
    (hkept : ∀ ⦃k : JourneyCriteria⦄, finishes.covers c.direction.dominatesJourney k = true →
      finishes'.covers c.direction.dominatesJourney k = true) : c.Doomed course finishes' l :=
  fun _ _ _ _ honward hallowed => hkept (h honward hallowed)

/-- What a doomed label covers is doomed. -/
theorem covered (h : c.Doomed course finishes l) (hplain : c.Plain course)
    (hcovers : l.Covers c.direction m) : c.Doomed course finishes m := by
  intro rides duration cost ending honward hallowed
  obtain ⟨htime, hcost, honBoard⟩ := Direction.dominatesAtStop_iff.mp hcovers.dominates
  have hround := hcovers.round
  have hstarted : (l.round != 0) = true → (m.round != 0) = true := by
    simp only [bne_iff_ne]
    omega
  obtain ⟨sooner, honward', hsooner⟩ := honward.sooner hplain.slacks hstarted honBoard htime
  rw [← hcovers.stop] at honward'
  refine Front.covers_trans c.direction.dominatesJourney_isOrder.1
    (h honward' (hallowed.mono (by omega))) (Direction.dominatesJourney_iff.mpr ⟨hsooner, ?_, ?_⟩)
  · show min (l.round + rides) 255 - 1 ≤ min (m.round + rides) 255 - 1
    omega
  · exact Int.add_le_add_right hcost cost

/-- Rides after a doomed label are doomed. -/
theorem ride (h : c.Doomed course finishes m) (hplain : c.Plain course)
    (hride : c.RidesAfter course.network s id m l) : c.Doomed course finishes l := by
  intro rides duration cost ending honward hallowed
  have hround : l.round = m.round + 1 := by
    obtain ⟨_, _, _, _, _, _, _, _, -, -, -, -, -, -, -, -, rfl⟩ := hride
    rfl
  obtain ⟨_, cost', hbefore, hdearer⟩ := hride.onward hplain.sound hplain.rules_eq honward
    (hplain.brief honward)
  have hrides : l.round + rides = m.round + (rides + 1) := by omega
  rw [hrides] at hallowed ⊢
  exact Front.covers_trans c.direction.dominatesJourney_isOrder.1 (h hbefore hallowed)
    (Direction.dominatesJourney_iff.mpr ⟨.refl, le_rfl, hdearer hplain.tariff hplain.slacks⟩)

/-- Walks after a doomed label are doomed. -/
theorem walk (h : c.Doomed course finishes m) (hplain : c.Plain course) {w : Walk}
    (honBoard : m.onBoard = true) (hwalk : course.network.HasWalk w)
    (hsource : c.direction.walkSource w = m.stop) (htarget : c.direction.walkTarget w ≠ m.stop) :
    c.Doomed course finishes (c.walked m.stop w id m) := by
  intro rides duration cost ending honward hallowed
  have hcovers := h (honward.of_walked honBoard hwalk hsource htarget
    (hplain.brief honward)) hallowed
  have hcost : (c.walked m.stop w id m).cost + cost =
      m.cost + (cost + c.tariff.walk * w.duration) := by
    show m.cost + c.tariff.walk * w.duration + cost = _
    ring
  rw [hcost]
  exact hcovers

/-- A journey that ends after a doomed label is not better than what has been found. -/
theorem finish (h : c.Doomed course finishes l) (hplain : c.Plain course) {leg : Connector}
    (honBoard : l.onBoard = true) (hleg : leg ∈ c.egress) (hstop : leg.stop = l.stop)
    (hinside : l.stop < c.stopCount) (hround : l.round ≤ course.maxRounds) :
    finishes.covers c.direction.dominatesJourney (c.finishCriteria l leg) = true := by
  have hwalks := hplain.walks leg hleg
  rw [← hstop, hplain.scene.stopCount_eq] at hinside
  have hcovers := h (onwardFrom_finish honBoard hleg hstop hwalks hinside) fun _ => hround
  rwa [finishCriteria, hwalks]

end Doomed

/-- What bounds leave out is doomed. -/
theorem doomed_of_hopeless (hplain : c.Plain course) (hb : c.Admits course b)
    (h : (c.under b).HopelessLabel s l) : c.Doomed course s.finishes l := by
  obtain ⟨bounds, hbounds, hcovers⟩ := h
  intro rides duration cost ending honward hallowed
  obtain ⟨rideFirst, hremains, -⟩ := honward.remains
  rw [← hplain.direction_eq] at hremains
  obtain ⟨bound, hat, hduration, htransfers, hcost⟩ := hb bounds hbounds hremains
    (hallowed.mono (Nat.le_add_left _ _)) (hplain.brief honward)
  refine Front.covers_trans c.direction.dominatesJourney_isOrder.1 (hcovers bound hat)
    (Direction.dominatesJourney_iff.mpr ⟨?_, ?_, ?_⟩)
  · exact (Direction.NoLater.refl.shift hduration).trans (honward.noLater hplain.slacks)
  · show min (l.round + bound.transfers) 255 - 1 ≤ min (l.round + rides) 255 - 1
    omega
  · exact Int.add_le_add_left (hcost hplain.tariff.rides) l.cost

/-! ### Labels that are tried in parallel -/

theorem Parallel.symm (h : c.Parallel course s s') : c.Parallel course s' s :=
  ⟨h.right, h.left, h.round_eq.symm, h.iteration_eq.symm, h.back, h.forth⟩

/-- Labels of two kinds are tried in parallel states. Those that are not doomed have twins of the
other kind. -/
structure InStep (c : LabelScene) (course : Course) (b b' : Option Bounds)
    (kind kind' : Label → Prop)
    (s s' s₁ s₁' : Labels) : Prop where
  before : c.Parallel course s s'
  left : (c.under b).Tried course.maxRounds kind s s₁
  right : (c.under b').Tried course.maxRounds kind' s' s₁'
  forth : c.Copies course s.finishes kind kind'
  back : c.Copies course s'.finishes kind' kind
  left_current : ∀ l, kind l → l.iteration = s.iteration
  right_current : ∀ l, kind' l → l.iteration = s'.iteration

namespace InStep

theorem symm (h : c.InStep course b b' kind kind' s s' s₁ s₁') :
    c.InStep course b' b kind' kind s' s s₁' s₁ :=
  ⟨h.before.symm, h.right, h.left, h.back, h.forth, h.right_current, h.left_current⟩

/-- What is doomed makes no difference. -/
theorem sideBySide (h : c.InStep course b b' kind kind' s s' s₁ s₁') (hplain : c.Plain course)
    (hb : c.Admits course b) (hb' : c.Admits course b') :
    c.SideBySide course.maxRounds b b' (c.Doomed course s.finishes) kind kind' s s' s₁ s₁' where
  costs := hplain.tariff.rides
  sound := h.before.left
  sound' := h.before.right
  round_eq := h.before.round_eq
  iteration_eq := h.before.iteration_eq
  tried := h.left
  tried' := h.right
  held := h.before.forth.held
  held' _ hl := (h.before.back.held hl).imp_left (·.mono h.before.back.finishes)
  made := h.forth
  made' _ hl := (h.back hl).imp_left (·.mono h.before.back.finishes)
  current := h.left_current
  current' := h.right_current
  covered _ _ hdoomed := hdoomed.covered hplain
  hopeless _ := doomed_of_hopeless hplain hb
  hopeless' _ hl := (doomed_of_hopeless hplain hb' hl).mono h.before.back.finishes

/-- After both have tried their labels, each state mirrors the other. -/
theorem mirrors (h : c.InStep course b b' kind kind' s s' s₁ s₁') (hplain : c.Plain course)
    (hb : c.Admits course b) (hb' : c.Admits course b') : c.Mirrors course s₁ s₁' where
  finishes := by
    rw [h.left.finishes_eq, h.right.finishes_eq]
    exact h.before.forth.finishes
  held := by
    rw [h.left.finishes_eq]
    exact (h.sideBySide hplain hb hb').copied

/-- Where twins are tried in parallel states, these stay parallel. -/
theorem parallel (h : c.InStep course b b' kind kind' s s' s₁ s₁') (hplain : c.Plain course)
    (hb : c.Admits course b) (hb' : c.Admits course b') : c.Parallel course s₁ s₁' where
  left := h.left.sound
  right := h.right.sound
  round_eq := by rw [h.left.round_eq, h.right.round_eq, h.before.round_eq]
  iteration_eq := by rw [h.left.iteration_eq, h.right.iteration_eq, h.before.iteration_eq]
  forth := h.mirrors hplain hb hb'
  back := h.symm.mirrors hplain hb' hb

end InStep

/-- Rides from labels with twins lead to labels with twins. -/
theorem Parallel.copies_rides (h : c.Parallel course s s') (hplain : c.Plain course) :
    c.Copies course s.finishes (fun l => ∃ i, c.RidesOn course.network s i l)
      (fun l => ∃ i, c.RidesOn course.network s' i l) :=
  copied_rides hplain.rules_eq h.forth.held h.round_eq h.iteration_eq
    fun _ _ _ hdoomed => hdoomed.ride hplain

/-- Walks from labels with twins lead to labels with twins. -/
theorem Parallel.copies_walks (h : c.Parallel course s s') (hplain : c.Plain course) :
    c.Copies course s.finishes (c.Walks course.network s) (c.Walks course.network s') :=
  copied_walks h.forth.held h.round_eq h.iteration_eq fun _ _ _ hdoomed => hdoomed.walk hplain

theorem copies_self : c.Copies course finishes kind kind := fun l hl => .inr ⟨l, hl, .refl l⟩

/-- The same labels are tried in both states. -/
theorem Parallel.inStep (h : c.Parallel course s s')
    (left : (c.under b).Tried course.maxRounds kind s s₁)
    (right : (c.under b').Tried course.maxRounds kind s' s₁')
    (hkind : ∀ l, kind l → l.iteration = s.iteration) :
    c.InStep course b b' kind kind s s' s₁ s₁' :=
  ⟨h, left, right, copies_self, copies_self, hkind, fun l hl => (hkind l hl).trans h.iteration_eq⟩

/-! ### Finishes -/

namespace Parallel

variable {P : Prop}

theorem mirrors_gained (h : c.Parallel course s s') (hplain : c.Plain course)
    (hgained : Front.Gained c.direction.dominatesJourney (fun e => P ∧ c.FinishesWith s e)
      s.finishes finishes)
    (hgained' : Front.Gained c.direction.dominatesJourney (fun e => P ∧ c.FinishesWith s' e)
      s'.finishes finishes') :
    c.Mirrors course { s with finishes } { s' with finishes := finishes' } where
  finishes _ hk := covers_gained h.forth.held h.round_eq h.iteration_eq h.forth.finishes
    (fun _ _ _ hdoomed hholds hleg hstop hrides => hdoomed.finish hplain
      (by simpa [hplain.walks _ hleg] using hrides) hleg hstop (h.left.stop_lt hholds.1)
      (h.left.label_round_le hholds.1)) hgained hgained' hk
  held _ hl := (h.forth.held hl).imp_left fun hdoomed => hdoomed.mono fun _ => hgained.kept

/-- The journeys that end in two parallel states leave them parallel. -/
theorem gained (h : c.Parallel course s s') (hplain : c.Plain course)
    (hgained : Front.Gained c.direction.dominatesJourney (fun e => P ∧ c.FinishesWith s e)
      s.finishes finishes)
    (hgained' : Front.Gained c.direction.dominatesJourney (fun e => P ∧ c.FinishesWith s' e)
      s'.finishes finishes') :
    c.Parallel course { s with finishes } { s' with finishes := finishes' } where
  left := h.left.withFinishes finishes
  right := h.right.withFinishes finishes'
  round_eq := h.round_eq
  iteration_eq := h.iteration_eq
  forth := h.mirrors_gained hplain hgained hgained'
  back := h.symm.mirrors_gained hplain hgained' hgained

/-- States that mirror each other do so at the beginning of the next round. -/
theorem turn (h : c.Parallel course s s') (hround : s.round < course.maxRounds) :
    c.Parallel course s.turn s'.turn where
  left := h.left.turn hround
  right := h.right.turn (h.round_eq ▸ hround)
  round_eq := congrArg (· + 1) h.round_eq
  iteration_eq := h.iteration_eq
  forth := ⟨h.forth.finishes, h.forth.held⟩
  back := ⟨h.back.finishes, h.back.held⟩

theorem start (h : c.Parallel course s s') (time : Time) :
    c.Parallel course (Labels.start time s) (Labels.start time s') where
  left := h.left.start time
  right := h.right.start time
  round_eq := rfl
  iteration_eq := congrArg (· + 1) h.iteration_eq
  forth := ⟨h.forth.finishes, h.forth.held⟩
  back := ⟨h.back.finishes, h.back.held⟩

theorem refl (hs : s.Sound c.direction c.stopCount course.maxRounds) : c.Parallel course s s where
  left := hs
  right := hs
  round_eq := rfl
  iteration_eq := rfl
  forth := ⟨fun _ hk => hk, copies_self⟩
  back := ⟨fun _ hk => hk, copies_self⟩

end Parallel

/-! ### Runs -/

/-- What a round does with some bounds and with others keeps states parallel. -/
theorem Plain.lockstep (hplain : c.Plain course) (hb : c.Admits course b)
    (hb' : c.Admits course b') : c.Lockstep course b b' (c.Parallel course) where
  round_eq h := h.round_eq
  iteration_eq h := h.iteration_eq
  turn h := h.turn
  start time h := h.start time
  gained h := h.gained hplain
  rides h rides rides' := InStep.parallel ⟨h, rides, rides', h.copies_rides hplain,
    h.symm.copies_rides hplain, fun _ ⟨_, hl⟩ => hl.iteration_eq,
    fun _ ⟨_, hl⟩ => hl.iteration_eq⟩ hplain hb hb'
  seeds h hkind seeds seeds' := (h.inStep seeds seeds' hkind).parallel hplain hb hb'
  walks h walks walks' := InStep.parallel ⟨h, walks, walks', h.copies_walks hplain,
    h.symm.copies_walks hplain, fun _ hl => hl.iteration_eq,
    fun _ hl => hl.iteration_eq⟩ hplain hb hb'

/-- The iterations from the same start times with some bounds and with others end in parallel
states. -/
theorem Iterations.parallel {times : List Time} (hall : (c.under b).Iterations course s times s₁)
    (hall' : (c.under b').Iterations course s' times s₁') (h : c.Parallel course s s')
    (hplain : c.Plain course) (hb : c.Admits course b) (hb' : c.Admits course b') :
    c.Parallel course s₁ s₁' :=
  (hplain.lockstep hb hb').iterations hall hall' h

/-- The finishes of parallel states have the same criteria. -/
theorem Parallel.exists_finish (h : c.Parallel course s s')
    (hclean : s.finishes.Clean c.direction.dominatesJourney) {e : Finish × JourneyCriteria}
    (he : e ∈ s.finishes.entries) : ∃ e' ∈ s'.finishes.entries, e'.2 = e.2 :=
  Front.exists_criteria c.direction.dominatesJourney_isOrder hclean h.forth.finishes
    h.back.finishes he

end LabelScene

end JourneyPlanner
