import JourneyPlanner.Proofs.Search.Origins

/-!
# What a search has explored

After a round everything that can follow a label of the iteration has been tried: the rides after
the labels of the rounds before, the walks after those on board and the legs to the end. What has
been tried is settled, once and for all: a label at least as good is held, or no journey through it
can be better than those found.

* `LabelScene.Grows`: what no part of a search takes back.
* `LabelScene.Settled`: a label that has been tried.
* `LabelScene.Explored`: all labels of an iteration, but the last ones, have been followed.
* `LabelScene.Rounds.explored`: so it is after any number of rounds.
-/

namespace JourneyPlanner

namespace LabelScene

variable {c : LabelScene} {net : Network} {course : Course} {s s₁ s₂ : Labels} {maxRounds : Nat}
  {kind : Label → Prop} {id : LabelId} {label l : Label} {time : Time}

/-! ### Growth -/

/-- A state goes on with an iteration: what is covered stays covered, and of the labels that are
held only those of the iteration are new. -/
structure Grows (c : LabelScene) (s s' : Labels) : Prop where
  covered : ∀ ⦃round : Nat⦄ ⦃stop : StopId⦄ ⦃k : StopCriteria⦄,
    s.CoveredBy c.direction round stop k → s'.CoveredBy c.direction round stop k
  finishes : ∀ ⦃k : JourneyCriteria⦄, s.finishes.covers c.direction.dominatesJourney k = true →
    s'.finishes.covers c.direction.dominatesJourney k = true
  held : ∀ ⦃id : LabelId⦄ ⦃l : Label⦄, s'.Holds id l → s.Holds id l ∨ l.iteration = s'.iteration
  iteration_eq : s'.iteration = s.iteration

namespace Grows

theorem refl : c.Grows s s where
  covered _ _ _ h := h
  finishes _ h := h
  held _ _ := .inl
  iteration_eq := rfl

theorem trans (h : c.Grows s s₁) (h' : c.Grows s₁ s₂) : c.Grows s s₂ where
  covered _ _ _ hk := h'.covered (h.covered hk)
  finishes _ hk := h'.finishes (h.finishes hk)
  held id l hl := by
    rcases h'.held hl with hl | hl
    · rw [h'.iteration_eq]
      exact h.held hl
    · exact .inr hl
  iteration_eq := h'.iteration_eq.trans h.iteration_eq

end Grows

/-- Trying labels of the current iteration adds none of another iteration. -/
theorem Tried.grows (h : c.Tried maxRounds kind s s₁)
    (hkind : ∀ l, kind l → l.iteration = s.iteration) : c.Grows s s₁ := by
  obtain ⟨attempts, hoffered, hmade, -⟩ := h.offered
  constructor
  · intro round stop k hk
    exact hoffered.covered hk
  · intro k hk
    rwa [hoffered.finishes_eq]
  · intro id l hl
    refine (hoffered.held hl).imp_right fun hnew => ?_
    rw [hkind l (hmade l hnew.1), hoffered.iteration_eq]
  · exact hoffered.iteration_eq

theorem grows_of_gained {finishes : Front Finish JourneyCriteria}
    {gains : Finish × JourneyCriteria → Prop}
    (h : Front.Gained c.direction.dominatesJourney gains s.finishes finishes) :
    c.Grows s { s with finishes } where
  covered _ _ _ hk := hk
  finishes _ hk := h.kept hk
  held _ _ := .inl
  iteration_eq := rfl

theorem grows_turn : c.Grows s s.turn where
  covered _ _ _ hk := hk
  finishes _ hk := hk
  held _ _ := .inl
  iteration_eq := rfl

theorem RidesOn.iteration_eq {i : Nat} (h : c.RidesOn net s i l) : l.iteration = s.iteration := by
  obtain ⟨_, _, _, -, -, _, _, _, _, -, -, -, -, rfl⟩ := h
  rfl

theorem Walks.iteration_eq (h : c.Walks net s l) : l.iteration = s.iteration := by
  obtain ⟨_, _, _, _, -, -, -, hiteration, -, -, -, -, rfl⟩ := h
  exact hiteration

/-- A round adds labels of its iteration only. -/
theorem Round.grows (h : c.Round course time s s₁) : c.Grows s s₁ := by
  cases h with
  | mk opening rides seeds walks ending _ =>
    have hrides := rides.grows fun l ⟨_, hl⟩ => hl.iteration_eq
    have hseeds := seeds.grows fun l ⟨_, leg, _, hl⟩ => by
      rw [hl]
      rfl
    have hwalks := walks.grows fun l hl => hl.iteration_eq
    have hbegun := (grows_of_gained opening).trans (grows_turn (c := c))
    exact (((hbegun.trans hrides).trans hseeds).trans hwalks).trans (grows_of_gained ending)

theorem Rounds.grows {count : Nat} (h : c.Rounds course time s count s₁) : c.Grows s s₁ := by
  induction h with
  | zero => exact .refl
  | succ _ last ih => exact ih.trans last.grows

/-! ### Settled labels -/

/-- A label has been tried: a label of its place that is at least as good is covered, or no journey
through it can be better than those found. -/
def Settled (c : LabelScene) (s : Labels) (l : Label) : Prop :=
  ∃ better : Label, better.Better c l ∧
    (s.CoveredLabel c.direction better ∨ c.HopelessLabel s better)

/-- What is hopeless stays hopeless: finishes only get better. -/
theorem HopelessLabel.grows (h : c.HopelessLabel s l) (hgrows : c.Grows s s₁) :
    c.HopelessLabel s₁ l := by
  obtain ⟨bounds, hbounds, hcovers⟩ := h
  exact ⟨bounds, hbounds, fun b hb => hgrows.finishes (hcovers b hb)⟩

/-- What has been tried stays so while the state goes on. -/
theorem Settled.grows (h : c.Settled s l) (hgrows : c.Grows s s₁) : c.Settled s₁ l := by
  obtain ⟨better, hbetter, hsettled⟩ := h
  exact ⟨better, hbetter, hsettled.imp (fun h => hgrows.covered h) fun h => h.grows hgrows⟩

/-- A label of a kind that has been tried is settled. -/
theorem Tried.settled (h : c.Tried maxRounds kind s s₁) (hkind : kind l)
    (hstop : l.stop < c.stopCount) : c.Settled s₁ l := by
  obtain ⟨attempts, hoffered, -, hwanted⟩ := h.offered
  obtain ⟨better, hmem, hbetter⟩ := hwanted l hkind
  rw [← hbetter.stop] at hstop
  refine ⟨better, hbetter, (hoffered.attempted better hmem hstop).imp_right fun hhopeless => ?_⟩
  rwa [HopelessLabel, hoffered.finishes_eq]

/-! ### Explored states -/

/-- The labels at the end of rides after a label. -/
def RidesAfter (c : LabelScene) (net : Network) (s : Labels) (id : LabelId) (label l : Label) :
    Prop :=
  ∃ (i boardPosition position stop : Nat) (p : Pattern) (t : Timetable) (e : Boarded)
    (k : AboardCriteria), net.patterns[i]? = some p ∧ net.timetables[i]? = some t ∧
    p.stops[boardPosition]? = some label.stop ∧ c.direction.canBoard p boardPosition = .ok true ∧
    p.stops[position]? = some stop ∧ c.direction.canAlight p position = .ok true ∧
    c.direction.precedes boardPosition position = true ∧
    c.choose s t (c.ruleSearch p) id label label.stop boardPosition = .ok (some (e, k)) ∧
    l = c.alighted stop position (label.round + 1) label.iteration e

/-- Everything that can follow a label of the iteration has been tried, but for the rides after
labels of the last round, and which of the rides is made has been decided. -/
structure Explored (c : LabelScene) (net : Network) (s : Labels) : Prop where
  ends : ∀ ⦃id : LabelId⦄ ⦃label : Label⦄ ⦃leg : Connector⦄, s.Holds id label →
    label.iteration = s.iteration → label.onBoard = true → leg ∈ c.egress → leg.stop = label.stop →
    s.finishes.covers c.direction.dominatesJourney (c.finishCriteria label leg) = true
  walks : ∀ ⦃id : LabelId⦄ ⦃label : Label⦄ ⦃w : Walk⦄, s.Holds id label →
    label.iteration = s.iteration → label.onBoard = true → net.HasWalk w →
    c.direction.walkSource w = label.stop → c.direction.walkTarget w ≠ label.stop →
    c.Settled s (c.walked label.stop w id label)
  rides : ∀ ⦃id : LabelId⦄ ⦃label l : Label⦄, s.Holds id label → label.iteration = s.iteration →
    label.round < s.round → c.RidesAfter net s id label l → c.Settled s l
  decides : ∀ ⦃i position : Nat⦄ ⦃p : Pattern⦄ ⦃t : Timetable⦄ ⦃id : LabelId⦄ ⦃label : Label⦄,
    s.Holds id label → label.iteration = s.iteration → label.round < s.round →
    net.patterns[i]? = some p → net.timetables[i]? = some t → t.size ≠ 0 →
    p.stops[position]? = some label.stop → c.direction.canBoard p position = .ok true →
    ∃ chosen, c.choose s t (c.ruleSearch p) id label label.stop position = .ok chosen

/-- The rides after a label of the round before are those of the round. -/
theorem RidesAfter.ridesOn (h : c.RidesAfter net s id label l) (hholds : s.Holds id label)
    (hround : label.round + 1 = s.round) (hiteration : label.iteration = s.iteration) :
    ∃ i, c.RidesOn net s i l := by
  obtain ⟨i, boardPosition, position, stop, p, t, e, k, hp, ht, hboardStop, hboards,
    hstop, halights, hprecedes, hchoose, rfl⟩ := h
  rw [hround, hiteration]
  exact ⟨i, p, t, position, hp, ht, stop, boardPosition, e, k, hstop, halights, hprecedes,
    ⟨label.stop, id, label, hboardStop, hboards, hholds, rfl, hround, hiteration, hchoose⟩, rfl⟩

theorem RidesAfter.stop_lt (h : c.RidesAfter net s id label l) (hnet : net.Sound) :
    l.stop < net.stopCount := by
  obtain ⟨_, _, _, _, _, _, _, _, hp, -, -, -, hstop, -, -, -, rfl⟩ := h
  exact hnet.stop_lt hp hstop

/-- The rides after a label do not depend on the labels that have been added since. -/
theorem RidesAfter.congr (h : c.RidesAfter net s₁ id label l)
    (hs : s.Sound c.direction c.stopCount maxRounds)
    (hkept : ∀ {id : LabelId} {l : Label}, s.arena[id]? = some l → s₁.arena[id]? = some l)
    (hlabel : s.arena[id]? = some label) : c.RidesAfter net s id label l := by
  obtain ⟨i, boardPosition, position, stop, p, t, e, k, hp, ht, hboardStop, hboards,
    hstop, halights, hprecedes, hchoose, rfl⟩ := h
  rw [choose_eq hs hkept hlabel] at hchoose
  exact ⟨i, boardPosition, position, stop, p, t, e, k, hp, ht, hboardStop, hboards, hstop, halights,
    hprecedes, hchoose, rfl⟩

/-- What a round keeps of the labels of the rounds before. -/
structure Round.Keeps (c : LabelScene) (s s₁ : Labels) : Prop where
  kept : ∀ {id : LabelId} {l : Label}, s.arena[id]? = some l → s₁.arena[id]? = some l
  holds_iff : ∀ {id : LabelId} {l : Label}, l.round ≤ s.round → (s₁.Holds id l ↔ s.Holds id l)

/-- A round leaves the fronts of the rounds before as they are. -/
theorem Round.keeps (h : c.Round course time s s₁)
    (hs : s.Sound c.direction c.stopCount course.maxRounds) (hround : s.round < course.maxRounds) :
    Round.Keeps c s s₁ := by
  cases h with
  | @mk _ _ _ begun _ _ rides seeds walks _ _ =>
    have hturn := (hs.withFinishes begun).turn hround
    have hrides : _ = s.round + 1 := rides.round_eq
    have hseeds := seeds.round_eq
    refine ⟨fun hl => walks.kept (seeds.kept (rides.kept hl)), fun hle => ?_⟩
    refine (walks.holds_iff_of_ne seeds.sound (by omega)).trans ?_
    refine (seeds.holds_iff_of_ne rides.sound (by omega)).trans ?_
    exact rides.holds_iff_of_ne hturn (Nat.ne_of_lt (Nat.lt_succ_of_le hle))

/-- A label of the iteration is one of the round, or was held before it. -/
theorem Round.current_cases (h : c.Round course time s s₁)
    (hs : s.Sound c.direction c.stopCount course.maxRounds) (hround : s.round < course.maxRounds)
    (hholds : s₁.Holds id label) (hcurrent : label.iteration = s₁.iteration) :
    label.round = s₁.round ∨
      (s.Holds id label ∧ label.iteration = s.iteration ∧ label.round ≤ s.round) := by
  have hnext := h.round_eq
  rcases (h.sound.round_of_current hholds.1 hcurrent).eq_or_lt with hlast | hless
  · exact .inl hlast
  · have hbefore : label.round ≤ s.round := by omega
    exact .inr ⟨((h.keeps hs hround).holds_iff hbefore).mp hholds,
      hcurrent.trans h.iteration_eq, hbefore⟩

/-- A round follows all labels of the round before, and the walks and the ends of its own. -/
theorem Round.explored (h : c.Round course time s s₁) (hnet : course.network.Sound)
    (hc : c.Of course.network) (hs : s.Sound c.direction c.stopCount course.maxRounds)
    (hround : s.round < course.maxRounds) (hexplored : c.Explored course.network s) :
    c.Explored course.network s₁ := by
  have hgrows := h.grows
  have hkeeps := h.keeps hs hround
  have hcases {id : LabelId} {label : Label} (hholds : s₁.Holds id label)
      (hcurrent : label.iteration = s₁.iteration) := h.current_cases hs hround hholds hcurrent
  cases h with
  | @mk s₁ s₂ s₃ begun ended opening rides seeds walks ending decides =>
    constructor
    case ends =>
      intro id label leg hholds hcurrent honBoard hleg hstop
      rcases hcases hholds hcurrent with hlast | ⟨hheld, hcurrent', -⟩
      · exact ending.covers (e := (⟨id, leg⟩, c.finishCriteria label leg))
          ⟨label.stop, label, hholds, rfl, hlast, hcurrent, hleg, hstop, .inr honBoard, rfl⟩
      · exact hgrows.finishes (hexplored.ends hheld hcurrent' honBoard hleg hstop)
    case walks =>
      intro id label w hholds hcurrent honBoard hwalk hsource htarget
      rcases hcases hholds hcurrent with hlast | ⟨hheld, hcurrent', -⟩
      · have hheld := (walks.holds_iff_of_onBoard
          (fun l ⟨_, hl⟩ => hl.onBoard) honBoard).mp hholds
        have hlt : (c.walked label.stop w id label).stop < c.stopCount := by
          rw [hc.stopCount_eq]
          exact hnet.walkTarget_lt hwalk _
        have hsettled := walks.settled (l := c.walked label.stop w id label)
          ⟨label.stop, id, label, w, hheld, rfl, hlast.trans walks.round_eq,
            hcurrent.trans walks.iteration_eq, honBoard, hwalk, hsource, htarget, rfl⟩ hlt
        exact hsettled.grows (grows_of_gained ending)
      · exact (hexplored.walks hheld hcurrent' honBoard hwalk hsource htarget).grows hgrows
    case rides =>
      intro id label l hholds hcurrent hless hrides
      rcases hcases hholds hcurrent with hlast | ⟨hheld, hcurrent', hle⟩
      · exact absurd hlast hless.ne
      have hbefore := hrides.congr hs hkeeps.kept hheld.1
      by_cases hprevious : label.round = s.round
      · have hturn := (hs.withFinishes begun).turn hround
        have hridesOn := RidesAfter.ridesOn (s := ({ s with finishes := begun } : Labels).turn)
          hbefore hheld (congrArg (· + 1) hprevious) hcurrent'
        have hlt : l.stop < c.stopCount := by
          rw [hc.stopCount_eq]
          exact hbefore.stop_lt hnet
        have hseeds := seeds.grows fun l ⟨_, leg, _, hl⟩ => by
          rw [hl]
          rfl
        have hwalks := walks.grows fun l hl => hl.iteration_eq
        exact (rides.settled hridesOn hlt).grows
          ((hseeds.trans hwalks).trans (grows_of_gained ending))
      · exact (hexplored.rides hheld hcurrent' (by omega) hbefore).grows hgrows
    case decides =>
      intro i position p t id label hholds hcurrent hless hp ht hsome hstop hboards
      rcases hcases hholds hcurrent with hlast | ⟨hheld, hcurrent', hle⟩
      · exact absurd hlast hless.ne
      show ∃ chosen, c.choose _ t (c.ruleSearch p) id label label.stop position = .ok chosen
      rw [choose_eq hs hkeeps.kept hheld.1]
      by_cases hprevious : label.round = s.round
      · exact decides i hp ht hsome
          ⟨hboards, hstop, hheld, congrArg (· + 1) hprevious, hcurrent'⟩
      · exact hexplored.decides hheld hcurrent' (by omega) hp ht hsome hstop hboards

/-- By induction on the rounds: each explores what follows the labels of the one before it. -/
theorem Rounds.explored {count : Nat} (h : c.Rounds course time s count s₁)
    (hnet : course.network.Sound) (hc : c.Of course.network)
    (hs : s.Sound c.direction c.stopCount course.maxRounds) (hround : s.round = 0)
    (hcount : count ≤ course.maxRounds) (hexplored : c.Explored course.network s) :
    c.Explored course.network s₁ := by
  induction h with
  | zero => exact hexplored
  | succ before last ih =>
    refine last.explored hnet hc (before.sound hs) ?_ (ih (by omega))
    rw [before.round_eq, hround]
    omega

end LabelScene

end JourneyPlanner
