import JourneyPlanner.Proofs.Search.Extensions

/-!
# Twins

Labels that differ only in where they come from. Whatever follows a label follows its twins in the
same way, and of two states that hold twins, trying twins in both leaves states that hold twins: the
order in which the labels are tried does not matter, since a label is displaced by what is at least
as good, and that has a twin too. Labels that make no difference to the answer may be left out of
this; they are called lost.

* `Label.Covers`, `Label.Twin`: labels that are at least as good as others, or just as good.
* `Label.Copied`: each label of a kind is lost or has a twin of another kind.
* `LabelScene.SideBySide.copied`: labels that are tried side by side leave copies of each other.
* `LabelScene.copied_rides`, `LabelScene.copied_walks`: what follows twins are twins.
* `LabelScene.Lockstep.iterations`: what each part of a round keeps, two runs keep.
-/

namespace JourneyPlanner

/-- A label that is at least as good as another one at its stop, after no more rides. -/
structure Label.Covers (d : Direction) (m l : Label) : Prop where
  stop : m.stop = l.stop
  round : m.round ≤ l.round
  dominates : d.dominatesAtStop m.criteria l.criteria = true

/-- Labels that differ only in where they come from. -/
structure Label.Twin (l m : Label) : Prop where
  stop : l.stop = m.stop
  round : l.round = m.round
  iteration : l.iteration = m.iteration
  time : l.time = m.time
  cost : l.cost = m.cost
  onBoard : l.onBoard = m.onBoard

namespace Label

variable {d : Direction} {l m n : Label}

theorem Covers.refl : l.Covers d l := ⟨rfl, le_rfl, d.dominatesAtStop_isOrder.refl _⟩

theorem Covers.trans (h : l.Covers d m) (h' : m.Covers d n) : l.Covers d n where
  stop := h.stop.trans h'.stop
  round := h.round.trans h'.round
  dominates := d.dominatesAtStop_isOrder.trans h.dominates h'.dominates

theorem Twin.refl (l : Label) : l.Twin l := ⟨rfl, rfl, rfl, rfl, rfl, rfl⟩

theorem Twin.symm (h : l.Twin m) : m.Twin l :=
  ⟨h.stop.symm, h.round.symm, h.iteration.symm, h.time.symm, h.cost.symm, h.onBoard.symm⟩

theorem Twin.trans (h : l.Twin m) (h' : m.Twin n) : l.Twin n :=
  ⟨h.stop.trans h'.stop, h.round.trans h'.round, h.iteration.trans h'.iteration,
    h.time.trans h'.time, h.cost.trans h'.cost, h.onBoard.trans h'.onBoard⟩

theorem Twin.criteria (h : l.Twin m) : l.criteria = m.criteria := by
  rw [Label.criteria, Label.criteria, h.time, h.cost, h.onBoard]

theorem Twin.covers (h : l.Twin m) : l.Covers d m := by
  refine ⟨h.stop, h.round.le, ?_⟩
  rw [h.criteria]
  exact d.dominatesAtStop_isOrder.refl _

/-- Labels of one iteration that cover each other are twins. -/
theorem Covers.twin (h : l.Covers d m) (h' : m.Covers d l)
    (hiteration : l.iteration = m.iteration) :
    l.Twin m := by
  have hcriteria := d.dominatesAtStop_isOrder.antisymm h.dominates h'.dominates
  exact ⟨h.stop, h.round.antisymm h'.round, hiteration, congrArg StopCriteria.time hcriteria,
    congrArg StopCriteria.cost hcriteria, congrArg StopCriteria.onBoard hcriteria⟩

/-- Each label of a kind is lost or has a twin of another kind. -/
def Copied (lost kind kind' : Label → Prop) : Prop :=
  ∀ ⦃l : Label⦄, kind l → lost l ∨ ∃ m, kind' m ∧ l.Twin m

end Label

namespace Labels

/-- A state holds a label at some place. -/
def Held (s : Labels) (l : Label) : Prop := ∃ id, s.Holds id l

/-- A label is covered by one that is held and at least as good. -/
theorem Held.covers {s : Labels} {d : Direction} {l m : Label} (h : s.Held m)
    (hcovers : m.Covers d l) :
    s.CoveredLabel d l := by
  obtain ⟨id, hholds⟩ := h
  have hcovered := hholds.covers hcovers.round hcovers.dominates
  rwa [hcovers.stop] at hcovered

/-- A label that is covered is covered by one that is held. -/
theorem Sound.exists_held {s : Labels} {d : Direction} {stopCount maxRounds : Nat} {l : Label}
    (hs : s.Sound d stopCount maxRounds) (h : s.CoveredLabel d l) :
    ∃ m, s.Held m ∧ m.Covers d l := by
  obtain ⟨id, m, hholds, hstop, hround, hdom⟩ := hs.exists_of_coveredBy h
  exact ⟨m, ⟨id, hholds⟩, hstop, hround, hdom⟩

end Labels

namespace LabelScene

/-- The search with other bounds, or without any. -/
def under (c : LabelScene) (bounds : Option Bounds) : LabelScene := { c with bounds }

variable {c : LabelScene} {net : Network} {b b' : Option Bounds} {s s' s₁ s₁' : Labels}
  {maxRounds : Nat} {lost kind kind' : Label → Prop} {id id' : LabelId} {l m n : Label}

/-! ### Labels that have been tried -/

/-- A label that is held after labels of a kind have been tried was held before, or is one of them
that nothing covered and bounds did not leave out. -/
theorem Tried.held_cases (h : (c.under b).Tried maxRounds kind s s₁)
    (hs : s.Sound c.direction c.stopCount maxRounds) (hl : s₁.Held l) :
    s.Held l ∨ kind l ∧ ¬s.CoveredLabel c.direction l ∧ ¬(c.under b).HopelessLabel s l ∧
      l.round = s.round := by
  obtain ⟨id, hholds⟩ := hl
  obtain ⟨attempts, hoffered, hmade, -⟩ := h.offered
  rcases hoffered.held hholds with hbefore | ⟨hmem, hcovered⟩
  · exact .inl ⟨id, hbefore⟩
  rcases hoffered.hopeful hholds with hbefore | hopen
  · exact .inl ⟨id, hbefore⟩
  by_cases hround : l.round = s.round
  · exact .inr ⟨hmade l hmem, hcovered, hopen, hround⟩
  · exact .inl ⟨id, (h.holds_iff_of_ne hs hround).mp hholds⟩

/-- What covers a label that is held was held before, or is the label. -/
theorem Tried.held_of_covers (h : (c.under b).Tried maxRounds kind s s₁)
    (hs : s.Sound c.direction c.stopCount maxRounds) (hm : s₁.Held m) (hl : s₁.Held l)
    (hcovers : m.Covers c.direction l) (hround : l.round = s.round) : s.Held m ∨ m = l := by
  obtain ⟨id, hholds⟩ := hm
  obtain ⟨id', hholds'⟩ := hl
  by_cases hsame : m.round = s.round
  · exact .inr (h.sound.eq_of_dominates hholds hholds' (hsame.trans hround.symm) hcovers.stop
      hcovers.dominates).2
  · exact .inl ⟨id, (h.holds_iff_of_ne hs hsame).mp hholds⟩

/-- A label that is held stays, or a new one that covers it takes its place. -/
theorem Tried.kept_or_displaced (h : (c.under b).Tried maxRounds kind s s₁)
    (hs : s.Sound c.direction c.stopCount maxRounds) (hl : s.Held l) :
    s₁.Held l ∨ ∃ n, s₁.Held n ∧ n.Covers c.direction l ∧ kind n ∧
      ¬s.CoveredLabel c.direction n ∧ ¬(c.under b).HopelessLabel s n ∧ l.round = s.round := by
  obtain ⟨id, hholds⟩ := hl
  obtain ⟨attempts, hoffered, -⟩ := h.offered
  rcases hoffered.displaced hholds with hkept | ⟨id', n, hn, -, hfresh, hstop, hround, hdom⟩
  · exact .inl ⟨id, hkept⟩
  rcases h.held_cases hs ⟨id', hn⟩ with hbefore | ⟨hmade, -, hopen, hnround⟩
  · exact absurd (hbefore.covers .refl) hfresh
  · exact .inr ⟨n, ⟨id', hn⟩, ⟨hstop, hround.le, hdom⟩, hmade, hfresh, hopen,
      hround.symm.trans hnround⟩

/-! ### Labels that are tried side by side -/

/-- Labels of two kinds are tried in two states of a round. Those that are not lost have twins in
the other state, and twins of the other kind. What a label that is lost covers is lost, and so is
what is hopeless. -/
structure SideBySide (c : LabelScene) (maxRounds : Nat) (b b' : Option Bounds)
    (lost kind kind' : Label → Prop) (s s' s₁ s₁' : Labels) : Prop where
  costs : c.tariff.RidesCost
  sound : s.Sound c.direction c.stopCount maxRounds
  sound' : s'.Sound c.direction c.stopCount maxRounds
  round_eq : s.round = s'.round
  iteration_eq : s.iteration = s'.iteration
  tried : (c.under b).Tried maxRounds kind s s₁
  tried' : (c.under b').Tried maxRounds kind' s' s₁'
  held : Label.Copied lost s.Held s'.Held
  held' : Label.Copied lost s'.Held s.Held
  made : Label.Copied lost kind kind'
  made' : Label.Copied lost kind' kind
  current : ∀ l, kind l → l.iteration = s.iteration
  current' : ∀ l, kind' l → l.iteration = s'.iteration
  covered : ∀ ⦃l m : Label⦄, lost l → l.Covers c.direction m → lost m
  hopeless : ∀ ⦃l : Label⦄, (c.under b).HopelessLabel s l → lost l
  hopeless' : ∀ ⦃l : Label⦄, (c.under b').HopelessLabel s' l → lost l

namespace SideBySide

theorem symm (h : c.SideBySide maxRounds b b' lost kind kind' s s' s₁ s₁') :
    c.SideBySide maxRounds b' b lost kind' kind s' s s₁' s₁ :=
  ⟨h.costs, h.sound', h.sound, h.round_eq.symm, h.iteration_eq.symm, h.tried', h.tried, h.held',
    h.held, h.made', h.made, h.current', h.current, h.covered, h.hopeless', h.hopeless⟩

/-- What covers a label that is not lost has a twin that covers it. -/
theorem coveredLabel (h : c.SideBySide maxRounds b b' lost kind kind' s s' s₁ s₁') (hm : s.Held m)
    (hcovers : m.Covers c.direction l) (hopen : ¬lost l) : s'.CoveredLabel c.direction l := by
  rcases h.held hm with hlost | ⟨m', hm', htwin⟩
  · exact absurd (h.covered hlost hcovers) hopen
  · exact hm'.covers (htwin.symm.covers.trans hcovers)

/-- A label that is tried in one state and not lost is covered in the other one. -/
theorem exists_held (h : c.SideBySide maxRounds b b' lost kind kind' s s' s₁ s₁') (hl : kind l)
    (hstop : l.stop < c.stopCount) (hopen : ¬lost l) :
    ∃ m, s₁'.Held m ∧ m.Covers c.direction l := by
  obtain ⟨l', hl', htwin⟩ := (h.made hl).resolve_left hopen
  rw [htwin.stop] at hstop
  obtain ⟨better, hbetter, hsettled⟩ := h.tried'.settled hl' hstop
  have hcovers : better.Covers c.direction l' :=
    ⟨hbetter.stop, hbetter.round.le, hbetter.dominates h.costs⟩
  rcases hsettled with hcovered | hhopeless
  · obtain ⟨m, hm, hm'⟩ := h.tried'.sound.exists_held hcovered
    exact ⟨m, hm, (hm'.trans hcovers).trans htwin.symm.covers⟩
  · rw [HopelessLabel, h.tried'.finishes_eq] at hhopeless
    exact absurd (h.covered (h.covered (h.hopeless' hhopeless) hcovers) htwin.symm.covers) hopen

/-- Where a new label of the other state covers a label that is held and not lost, they are as good
as each other. -/
theorem covers_back (h : c.SideBySide maxRounds b b' lost kind kind' s s' s₁ s₁') (hl : s₁.Held l)
    (hopen : ¬lost l) (hround : l.round = s.round) (hn : s₁'.Held n) (hmade : kind' n)
    (hfresh : ¬s'.CoveredLabel c.direction n) (hcovers : n.Covers c.direction l) :
    l.Covers c.direction n := by
  have hnopen : ¬lost n := fun hlost => hopen (h.covered hlost hcovers)
  obtain ⟨id, hholds⟩ := hn
  obtain ⟨k, hk, hkn⟩ := h.symm.exists_held hmade (h.tried'.sound.stop_lt hholds.1) hnopen
  rcases h.tried.held_of_covers h.sound hk hl (hkn.trans hcovers) hround with hbefore | rfl
  · exact absurd (h.coveredLabel hbefore hkn hnopen) hfresh
  · exact hkn

/-- A label that stays held keeps a twin. -/
theorem exists_twin_of_kept (h : c.SideBySide maxRounds b b' lost kind kind' s s' s₁ s₁')
    (hl : s₁.Held l) (hbefore : s.Held l) (hopen : ¬lost l) : ∃ m, s₁'.Held m ∧ l.Twin m := by
  obtain ⟨m, hm, htwin⟩ := (h.held hbefore).resolve_left hopen
  rcases h.tried'.kept_or_displaced h.sound' hm with
    hkept | ⟨n, hn, hnm, hmade, hfresh, -, hround⟩
  · exact ⟨m, hkept, htwin⟩
  -- what displaces the twin would be covered by the label, and so by the twin
  have hlround : l.round = s.round := htwin.round.trans (hround.trans h.round_eq.symm)
  have hback := h.covers_back hl hopen hlround hn hmade hfresh (hnm.trans htwin.symm.covers)
  exact absurd (hm.covers (htwin.symm.covers.trans hback)) hfresh

/-- A label that is new has a twin. -/
theorem exists_twin_of_new (h : c.SideBySide maxRounds b b' lost kind kind' s s' s₁ s₁')
    (hl : s₁.Held l) (hmade : kind l) (hfresh : ¬s.CoveredLabel c.direction l)
    (hround : l.round = s.round) (hopen : ¬lost l) : ∃ m, s₁'.Held m ∧ l.Twin m := by
  obtain ⟨id, hholds⟩ := id hl
  obtain ⟨m, hm, hcovers⟩ := h.exists_held hmade (h.tried.sound.stop_lt hholds.1) hopen
  rcases h.tried'.held_cases h.sound' hm with hbefore | ⟨hmade', hfresh', -, -⟩
  · exact absurd (h.symm.coveredLabel hbefore hcovers hopen) hfresh
  have hback := h.covers_back hl hopen hround hm hmade' hfresh' hcovers
  refine ⟨m, hm, hback.twin hcovers ?_⟩
  rw [h.current l hmade, h.current' m hmade', h.iteration_eq]

/-- After twins have been tried, the labels that are held and not lost have twins. -/
theorem copied (h : c.SideBySide maxRounds b b' lost kind kind' s s' s₁ s₁') :
    Label.Copied lost s₁.Held s₁'.Held := by
  intro l hl
  by_cases hopen : lost l
  · exact .inl hopen
  refine .inr ?_
  rcases h.tried.held_cases h.sound hl with hbefore | ⟨hmade, hfresh, -, hround⟩
  · exact h.exists_twin_of_kept hl hbefore hopen
  · exact h.exists_twin_of_new hl hmade hfresh hround hopen

end SideBySide

/-! ### What follows twins -/

/-- Every ride of a round comes after a label of the round before. -/
theorem RidesOn.exists_ridesAfter {i : Nat} (h : c.RidesOn net s i l) :
    ∃ id m, s.Holds id m ∧ m.round + 1 = s.round ∧ m.iteration = s.iteration ∧
      c.RidesAfter net s id m l := by
  obtain ⟨p, t, position, hp, ht, stop, boardPosition, e, k, hstop, halights, hprecedes,
    ⟨_, id, m, hboardStop, hboards, hholds, rfl, hround, hiteration, hchoose⟩, rfl⟩ := h
  rw [← hround, ← hiteration]
  exact ⟨id, m, hholds, rfl, rfl, i, boardPosition, position, stop, p, t, e, k, hp, ht, hboardStop,
    hboards, hstop, halights, hprecedes, hchoose, rfl⟩

/-- The rides after twins are twins. -/
theorem RidesAfter.exists_twin (h : c.RidesAfter net s id m l)
    (hrules : c.rules = none) (htwin : m.Twin n) :
    ∃ l', c.RidesAfter net s' id' n l' ∧ l.Twin l' := by
  obtain ⟨i, boardPosition, position, stop, p, t, e, k, hp, ht, hboardStop, hboards,
    hstop, halights, hprecedes, hchoose, rfl⟩ := h
  obtain ⟨rank, trip, hbest, rfl⟩ := bestTrip_of_choose hrules hchoose
  have hearliest : c.earliest m = c.earliest n := by
    rw [earliest, earliest, htwin.time, htwin.round]
  have hboarded : c.boarded id m m.stop boardPosition trip .regular none =
      { c.boarded id' n n.stop boardPosition trip .regular none with previous := id } := by
    simp only [boarded, waitSince, htwin.stop, htwin.round, htwin.time, htwin.cost]
  have hchoose' : c.choose s' t (c.ruleSearch p) id' n n.stop boardPosition =
      .ok (some (c.boarded id' n n.stop boardPosition trip .regular none,
        c.aboardCriteria rank (c.boarded id' n n.stop boardPosition trip .regular none))) := by
    rw [ruleSearch_eq_none hrules, choose_eq_bestTrip, ← hearliest, hbest]
    rfl
  rw [htwin.stop] at hboardStop
  refine ⟨_, ⟨i, boardPosition, position, stop, p, t, _, _, hp, ht, hboardStop, hboards, hstop,
    halights, hprecedes, hchoose', rfl⟩, rfl, ?_, htwin.iteration, rfl, ?_, rfl⟩
  · exact congrArg (· + 1) htwin.round
  · rw [hboarded]
    rfl

/-- Rides have twins where rides after lost labels are lost. -/
theorem copied_rides (hrules : c.rules = none)
    (hheld : Label.Copied lost s.Held s'.Held) (hround : s.round = s'.round)
    (hiteration : s.iteration = s'.iteration)
    (hlost : ∀ ⦃id : LabelId⦄ ⦃m l : Label⦄, lost m → c.RidesAfter net s id m l → lost l) :
    Label.Copied lost (fun l => ∃ i, c.RidesOn net s i l) (fun l => ∃ i, c.RidesOn net s' i l) := by
  rintro l ⟨i, hrides⟩
  obtain ⟨id, m, hholds, hmround, hmiteration, hafter⟩ := hrides.exists_ridesAfter
  rcases hheld ⟨id, hholds⟩ with hm | ⟨n, ⟨id', hholds'⟩, htwin⟩
  · exact .inl (hlost hm hafter)
  · obtain ⟨l', hafter', htwin'⟩ := hafter.exists_twin hrules htwin
    rw [htwin.round, hround] at hmround
    rw [htwin.iteration, hiteration] at hmiteration
    exact .inr ⟨l', hafter'.ridesOn hholds' hmround hmiteration, htwin'⟩

/-- Walks have twins where walks after lost labels are lost. -/
theorem copied_walks (hheld : Label.Copied lost s.Held s'.Held)
    (hround : s.round = s'.round) (hiteration : s.iteration = s'.iteration)
    (hlost : ∀ ⦃id : LabelId⦄ ⦃m : Label⦄ ⦃w : Walk⦄, lost m → m.onBoard = true → net.HasWalk w →
      c.direction.walkSource w = m.stop → c.direction.walkTarget w ≠ m.stop →
      lost (c.walked m.stop w id m)) :
    Label.Copied lost (c.Walks net s) (c.Walks net s') := by
  rintro l ⟨_, id, m, w, hholds, rfl, hmround, hmiteration, honBoard, hwalk, hsource, htarget, rfl⟩
  rcases hheld ⟨id, hholds⟩ with hm | ⟨n, ⟨id', hholds'⟩, htwin⟩
  · exact .inl (hlost hm honBoard hwalk hsource htarget)
  · have hwalked : (c.walked m.stop w id m).Twin (c.walked n.stop w id' n) :=
      ⟨rfl, htwin.round, htwin.iteration, congrArg (c.direction.shift · w.duration) htwin.time,
        congrArg (· + c.tariff.walk * w.duration) htwin.cost, rfl⟩
    rw [htwin.stop] at hsource htarget
    exact .inr ⟨_, ⟨n.stop, id', n, w, hholds', rfl, htwin.round.symm.trans (hmround.trans hround),
      htwin.iteration.symm.trans (hmiteration.trans hiteration),
      htwin.onBoard.symm.trans honBoard, hwalk, hsource, htarget, rfl⟩, hwalked⟩

/-- What journeys that end after labels cover is covered by those that end after the twins, where
journeys that end after lost labels are covered already. -/
theorem covers_gained {P : Prop} {finishes finishes' : Front Finish JourneyCriteria}
    {k : JourneyCriteria} (hheld : Label.Copied lost s.Held s'.Held) (hround : s.round = s'.round)
    (hiteration : s.iteration = s'.iteration)
    (hcovers : ∀ ⦃k : JourneyCriteria⦄, s.finishes.covers c.direction.dominatesJourney k = true →
      s'.finishes.covers c.direction.dominatesJourney k = true)
    (hlost : ∀ ⦃id : LabelId⦄ ⦃l : Label⦄ ⦃leg : Connector⦄, lost l → s.Holds id l →
      leg ∈ c.egress → leg.stop = l.stop → leg.onBoard = true ∨ l.onBoard = true →
      s.finishes.covers c.direction.dominatesJourney (c.finishCriteria l leg) = true)
    (hgained : Front.Gained c.direction.dominatesJourney (fun e => P ∧ c.FinishesWith s e)
      s.finishes finishes)
    (hgained' : Front.Gained c.direction.dominatesJourney (fun e => P ∧ c.FinishesWith s' e)
      s'.finishes finishes')
    (hk : finishes.covers c.direction.dominatesJourney k = true) :
    finishes'.covers c.direction.dominatesJourney k = true := by
  have hdom := c.direction.dominatesJourney_isOrder
  obtain ⟨e, he, hek⟩ := Front.covers_iff.mp hk
  refine Front.covers_trans hdom.1 ?_ hek
  rcases hgained.entry he with hbefore | ⟨hP, stop, l, hholds, rfl, hlround, hliteration, hleg,
    hstop, honBoard, hcriteria⟩
  · exact hgained'.kept (hcovers (Front.covers_of_mem hbefore (hdom.refl _)))
  rw [hcriteria]
  rcases hheld ⟨_, hholds⟩ with hl | ⟨m, ⟨id', hholds'⟩, htwin⟩
  · exact hgained'.kept (hcovers (hlost hl hholds hleg hstop honBoard))
  have hfinish : c.finishCriteria l e.1.leg = c.finishCriteria m e.1.leg := by
    rw [finishCriteria, finishCriteria, htwin.time, htwin.round, htwin.cost]
  rw [hfinish]
  exact hgained'.covers (e := (⟨id', e.1.leg⟩, c.finishCriteria m e.1.leg))
    ⟨hP, m.stop, m, hholds', rfl, htwin.round.symm.trans (hlround.trans hround),
      htwin.iteration.symm.trans (hliteration.trans hiteration), hleg, hstop.trans htwin.stop,
      honBoard.imp_right htwin.onBoard.symm.trans, rfl⟩

/-! ### Two runs -/

/-- A relation between the states of two searches that everything they do in turn keeps. -/
structure Lockstep (c : LabelScene) (course : Course) (b b' : Option Bounds)
    (R : Labels → Labels → Prop) : Prop where
  round_eq : ∀ {s s'}, R s s' → s.round = s'.round
  iteration_eq : ∀ {s s'}, R s s' → s.iteration = s'.iteration
  turn : ∀ {s s'}, R s s' → s.round < course.maxRounds → R s.turn s'.turn
  start : ∀ {s s'} time, R s s' → R (Labels.start time s) (Labels.start time s')
  gained : ∀ {s s' finishes finishes'} {P : Prop}, R s s' →
    Front.Gained c.direction.dominatesJourney (fun e => P ∧ c.FinishesWith s e) s.finishes
      finishes →
    Front.Gained c.direction.dominatesJourney (fun e => P ∧ c.FinishesWith s' e) s'.finishes
      finishes' →
    R { s with finishes } { s' with finishes := finishes' }
  rides : ∀ {s s' s₁ s₁'}, R s s' →
    (c.under b).Tried course.maxRounds (fun l => ∃ i, c.RidesOn course.network s i l) s s₁ →
    (c.under b').Tried course.maxRounds (fun l => ∃ i, c.RidesOn course.network s' i l) s' s₁' →
    R s₁ s₁'
  seeds : ∀ {s s' s₁ s₁'} {kind : Label → Prop}, R s s' →
    (∀ l, kind l → l.iteration = s.iteration) → (c.under b).Tried course.maxRounds kind s s₁ →
    (c.under b').Tried course.maxRounds kind s' s₁' → R s₁ s₁'
  walks : ∀ {s s' s₁ s₁'}, R s s' →
    (c.under b).Tried course.maxRounds (c.Walks course.network s) s s₁ →
    (c.under b').Tried course.maxRounds (c.Walks course.network s') s' s₁' → R s₁ s₁'

namespace Lockstep

variable {course : Course} {R : Labels → Labels → Prop} {time : Time}

/-- It is kept by a round, -/
theorem round (h : c.Lockstep course b b' R) (hround : (c.under b).Round course time s s₁)
    (hround' : (c.under b').Round course time s' s₁') (hR : R s s')
    (hlt : s.round < course.maxRounds) : R s₁ s₁' := by
  cases hround with
  | mk opening rides seeds walks ending _ =>
    cases hround' with
    | mk opening' rides' seeds' walks' ending' _ =>
      rw [← h.round_eq hR] at opening'
      have hrides := h.rides (h.turn (h.gained hR opening opening') hlt) rides rides'
      rw [← h.round_eq hrides, ← h.iteration_eq hrides] at seeds'
      have hseeds := h.seeds hrides (fun l ⟨_, _, _, hl⟩ => hl ▸ rfl) seeds seeds'
      have hwalks := h.walks hseeds walks walks'
      exact h.gained hwalks (P := True) (ending.congr fun _ => (and_iff_right trivial).symm)
        (ending'.congr fun _ => (and_iff_right trivial).symm)

/-- by a number of rounds, -/
theorem rounds {count : Nat} (h : c.Lockstep course b b' R)
    (hrounds : (c.under b).Rounds course time s count s₁)
    (hrounds' : (c.under b').Rounds course time s' count s₁') (hR : R s s')
    (hfirst : s.round = 0) (hcount : count ≤ course.maxRounds) : R s₁ s₁' := by
  induction hrounds generalizing s₁' with
  | zero =>
    cases hrounds' with
    | zero => exact hR
  | @succ count _ _ before last ih =>
    cases hrounds' with
    | succ before' last' =>
      refine h.round last last' (ih before' (by omega)) ?_
      rw [before.round_eq, hfirst]
      omega

/-- and by the iterations from the same start times. -/
theorem iterations {times : List Time} (h : c.Lockstep course b b' R)
    (hall : (c.under b).Iterations course s times s₁)
    (hall' : (c.under b').Iterations course s' times s₁') (hR : R s s') : R s₁ s₁' := by
  induction hall generalizing s₁' with
  | nil =>
    generalize htimes : ([] : List Time) = times at hall'
    cases hall' with
    | nil => exact hR
    | snoc => simp at htimes
  | @snoc times time s₁ s₂ s₃ before seeds rounds _ ih =>
    generalize htimes : times ++ [time] = times' at hall'
    cases hall' with
    | nil => simp at htimes
    | @snoc times' time' s₁' s₂' _ before' seeds' rounds' _ =>
      obtain ⟨rfl, htime⟩ := List.append_inj' htimes rfl
      obtain rfl := List.singleton_inj.mp htime
      have hbefore := ih before'
      rw [← h.iteration_eq hbefore] at seeds'
      have hseeds := h.seeds (h.start time hbefore) (fun l ⟨_, _, hl⟩ => hl ▸ rfl) seeds seeds'
      exact h.rounds rounds rounds' hseeds (seeds.round_eq.trans rfl) le_rfl

end Lockstep

end LabelScene

end JourneyPlanner
