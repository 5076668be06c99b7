import JourneyPlanner.Proofs.Search.Riding

/-!
# Runs of the search for labels

A run is a sequence of iterations, and an iteration one of rounds. In each round all labels at the
end of rides after labels of the round before are tried, then those by walks after them, and the
journeys that end with a label of the round are added to the finishes. An iteration that ends early
has nothing left to try, so that every iteration may be taken to have all its rounds.

* `LabelScene.Walks`, `LabelScene.FinishesWith`: the labels by walks, and the finishes of a round.
* `LabelScene.Round`, `LabelScene.Rounds`: what one round does, and a number of them.
* `LabelScene.Iterations`: what the iterations from some start times do.
* `LabelScene.yields_run`: a run makes these iterations.
-/

namespace JourneyPlanner

namespace LabelScene

/-! ### The parts of a round -/

/-- The labels by walks after rides of the round that ended at a stop. -/
def WalksFrom (c : LabelScene) (net : Network) (s : Labels) (stop : StopId) (l : Label) : Prop :=
  ∃ id label w, s.Holds id label ∧ label.stop = stop ∧ label.round = s.round ∧
    label.iteration = s.iteration ∧ label.onBoard = true ∧ net.HasWalk w ∧
    c.direction.walkSource w = stop ∧ c.direction.walkTarget w ≠ stop ∧
    l = c.walked stop w id label

def Walks (c : LabelScene) (net : Network) (s : Labels) (l : Label) : Prop :=
  ∃ stop, c.WalksFrom net s stop l

/-- What is compared of a journey that ends with a leg after a label. -/
def finishCriteria (c : LabelScene) (label : Label) (leg : Connector) : JourneyCriteria :=
  { time := c.direction.shift label.time leg.duration
    transfers := min (label.round + leg.onBoard.toNat) 255 - 1
    cost := label.cost + leg.cost }

/-- The finishes after labels of the round at a stop. -/
def FinishesAt (c : LabelScene) (s : Labels) (stop : StopId) (e : Finish × JourneyCriteria) :
    Prop :=
  ∃ label, s.Holds e.1.label label ∧ label.stop = stop ∧ label.round = s.round ∧
    label.iteration = s.iteration ∧ e.1.leg ∈ c.egress ∧ e.1.leg.stop = stop ∧
    (e.1.leg.onBoard = true ∨ label.onBoard = true) ∧ e.2 = c.finishCriteria label e.1.leg

def FinishesWith (c : LabelScene) (s : Labels) (e : Finish × JourneyCriteria) : Prop :=
  ∃ stop, c.FinishesAt s stop e

variable {c : LabelScene} {net : Network} {course : Course} {s s' s₁ : Labels} {maxRounds : Nat}
  {kind : Label → Prop} {id : LabelId} {label : Label} {stop : StopId} {time : Time}

/-- Arrivals by walks leave those on board in place. -/
theorem Tried.holds_iff_of_onBoard (h : c.Tried maxRounds kind s s')
    (hkind : ∀ l, kind l → l.onBoard = false) (honBoard : label.onBoard = true) :
    s'.Holds id label ↔ s.Holds id label := by
  obtain ⟨attempts, hoffered, hmade, -⟩ := h.offered
  constructor
  · intro hheld
    refine (hoffered.held hheld).resolve_right fun ⟨hmem, _⟩ => ?_
    rw [hkind label (hmade label hmem)] at honBoard
    cases honBoard
  · intro hheld
    refine (hoffered.displaced hheld).resolve_right ?_
    rintro ⟨_, l', -, hmem, -, -, -, hdom⟩
    have := (Direction.dominatesAtStop_iff.mp hdom).2.2 honBoard
    change l'.onBoard = true at this
    rw [hkind l' (hmade l' hmem)] at this
    cases this

theorem WalksFrom.onBoard {l : Label} (h : c.WalksFrom net s stop l) : l.onBoard = false := by
  obtain ⟨_, _, _, -, -, -, -, -, -, -, -, rfl⟩ := h
  rfl

/-- The walks from a stop try the labels by walks after rides that ended there. -/
theorem yields_walk (htried : c.Tried maxRounds kind s s₁) (hkind : ∀ l, kind l → l.onBoard = false)
    (hstop : stop < c.stopCount) {walks : List Walk}
    (hwalks : ∀ w, w ∈ walks ↔ net.HasWalk w ∧ c.direction.walkSource w = stop) :
    Yields (c.walk stop walks s₁) (c.Tried maxRounds (c.WalksFrom net s stop) s₁) := by
  have hround : s₁.round ≤ maxRounds := htried.sound.round_le
  refine (htried.sound.yields_current hround hstop).bind fun arrivals _ harrivals => ?_
  have hheld : ∀ {id label}, (id, label) ∈ arrivals.filter (fun arrival => arrival.2.onBoard) ↔
      s.Holds id label ∧ label.stop = stop ∧ label.round = s.round ∧
        label.iteration = s.iteration ∧ label.onBoard = true := by
    intro id label
    rw [List.mem_filter, harrivals, htried.round_eq, htried.iteration_eq]
    constructor
    · rintro ⟨⟨hholds, hlabel, hlstop, hiteration⟩, honBoard⟩
      exact ⟨(htried.holds_iff_of_onBoard hkind honBoard).mp hholds, hlstop, hlabel, hiteration,
        honBoard⟩
    · rintro ⟨hholds, hlstop, hlabel, hiteration, honBoard⟩
      exact ⟨⟨(htried.holds_iff_of_onBoard hkind honBoard).mpr hholds, hlabel, hlstop, hiteration⟩,
        honBoard⟩
  have hfold := Tried.foldlM (f := c.walkFrom stop walks)
    (K := fun arrival l => ∃ walk ∈ walks, c.direction.walkTarget walk ≠ stop ∧
      l = c.walked stop walk arrival.1 arrival.2) htried.sound
    fun arrival (hmem : arrival ∈ arrivals.filter fun arrival => arrival.2.onBoard) s₂ kind₂
      htried₂ => by
      obtain ⟨hholds, -, hlabel, hiteration, -⟩ := hheld.mp hmem
      refine yields_walkFrom htried₂.sound (htried₂.kept (htried.kept hholds.1)) ?_ ?_
      · rw [htried₂.round_eq, htried.round_eq, hlabel]
      · rw [htried₂.iteration_eq, htried.iteration_eq, hiteration]
  refine hfold.mono fun s₂ _ htried₂ => htried₂.congr fun l => ?_
  constructor
  · rintro ⟨⟨id, label⟩, hmem, walk, hwalk, htarget, rfl⟩
    obtain ⟨hholds, hlstop, hlabel, hiteration, honBoard⟩ := hheld.mp hmem
    obtain ⟨hhas, hsource⟩ := (hwalks walk).mp hwalk
    exact ⟨id, label, walk, hholds, hlstop, hlabel, hiteration, honBoard, hhas, hsource,
      htarget, rfl⟩
  · rintro ⟨id, label, walk, hholds, hlstop, hlabel, hiteration, honBoard, hhas, hsource,
      htarget, rfl⟩
    exact ⟨(id, label), hheld.mpr ⟨hholds, hlstop, hlabel, hiteration, honBoard⟩, walk,
      (hwalks walk).mpr ⟨hhas, hsource⟩, htarget, rfl⟩

/-- The walks of a round try the labels by walks after its rides. -/
theorem yields_walkRound (hnet : course.network.Sound) (hc : c.Of course.network)
    (hd : course.direction = c.direction) (hs : s.Sound c.direction c.stopCount maxRounds) :
    Yields (walkRound (labelScheme c) course s)
      (c.Tried maxRounds (c.Walks course.network s) s) := by
  have hridden : ∀ stop, s.ridden.contains stop = true → stop < course.network.stopCount := by
    intro stop hstop
    have := IndexSet.lt_of_contains hstop
    rw [hs.ridden_size, hc.stopCount_eq] at this
    exact this
  refine (JourneyPlanner.yields_walkRound hnet hridden
    (A := fun done state => c.Tried maxRounds
      (fun l => ∃ stop ∈ done, c.WalksFrom course.network s stop l) s state)
    (.none hs (by simp)) ?_).mono fun state _ hstate => hstate.congr fun l => ?_
  · intro done stop rest state walks hsplit hwalks hdone
    rw [hd] at hwalks
    have hstop : stop < c.stopCount := by
      rw [hc.stopCount_eq]
      exact hridden stop (IndexSet.mem_toList.mp (by
        change stop ∈ s.ridden.toList
        change s.ridden.toList = _ at hsplit
        simp [hsplit]))
    refine (yields_walk hdone ?_ hstop hwalks).mono fun state' _ hstate' => ?_
    · rintro l ⟨_, -, hwalks⟩
      exact hwalks.onBoard
    · exact (hdone.trans hstate').congr fun l => by simp [or_and_right, exists_or]
  · constructor
    · rintro ⟨stop, -, hwalks⟩
      exact ⟨stop, hwalks⟩
    · rintro ⟨stop, hwalks⟩
      obtain ⟨id, label, _, hholds, rfl, hlabel, hiteration, honBoard, -⟩ := id hwalks
      exact ⟨label.stop, IndexSet.mem_toList.mpr (hs.ridden_of_current hholds.1 hiteration hlabel
        honBoard), hwalks⟩

/-! ### Finishing -/

section

variable {finishes : Front Finish JourneyCriteria} {leg : Connector}

/-- A loop gains what each of its turns gains. -/
theorem gained_foldlM {ξ : Type} (finishes : Front Finish JourneyCriteria) {xs : List ξ}
    {f : Front Finish JourneyCriteria → ξ → Checked (Front Finish JourneyCriteria)}
    {K : ξ → Finish × JourneyCriteria → Prop}
    (hf : ∀ x ∈ xs, ∀ front,
      Yields (f front x) (Front.Gained c.direction.dominatesJourney (K x) front)) :
    Yields (xs.foldlM f finishes)
      (Front.Gained c.direction.dominatesJourney (fun e => ∃ x ∈ xs, K x e) finishes) := by
  refine Yields.foldlM_done (I := fun done => Front.Gained c.direction.dominatesJourney
    (fun e => ∃ x ∈ done, K x e) finishes) (.none (by simp)) ?_
  rintro done x front ⟨rest, hrest⟩ hdone
  refine (hf x (by simp [hrest]) front).mono fun front' _ hfront' => ?_
  exact (hdone.trans hfront').congr fun e => by simp [or_and_right, exists_or]

theorem yields_finishBy :
    Yields (c.finishBy (id, label) finishes leg)
      (Front.Gained c.direction.dominatesJourney
        (fun e => (leg.onBoard = true ∨ label.onBoard = true) ∧
          e = (⟨id, leg⟩, c.finishCriteria label leg)) finishes) := by
  refine Yields.ite (fun hwalks => .none ?_) fun hrides => ?_
  · simp only [Bool.and_eq_true, Bool.not_eq_true'] at hwalks
    simp [hwalks.1, hwalks.2]
  · have hrides : leg.onBoard = true ∨ label.onBoard = true := by
      simpa only [Bool.and_eq_true, Bool.not_eq_true', not_and_or, Bool.not_eq_false] using hrides
    refine Direction.yields_plus.bind ?_
    rintro _ - ⟨rfl, -⟩
    refine (yields_word _).bind ?_
    rintro _ - ⟨rfl, -⟩
    exact (Front.Gained.one c.direction.dominatesJourney_isOrder.toIsPreorder).congr fun e => by
      simp [hrides, finishCriteria]

/-- The finishes after the arrivals at a stop are gained. -/
theorem yields_finishAt (hs : s.Sound c.direction c.stopCount maxRounds)
    (hstop : stop < c.stopCount) :
    Yields (c.finishAt s finishes stop)
      (Front.Gained c.direction.dominatesJourney (c.FinishesAt s stop) finishes) := by
  have hlegs : ∀ {leg}, leg ∈ c.egress.filter (·.stop == stop) ↔
      leg ∈ c.egress ∧ leg.stop = stop := by
    intro leg
    simp
  refine Yields.ite (fun hnone => .none ?_) fun _ => ?_
  · rintro e ⟨label, -, -, -, -, hleg, hlegstop, -⟩
    have := hlegs.mpr ⟨hleg, hlegstop⟩
    rw [List.isEmpty_iff.mp hnone] at this
    cases this
  · refine (hs.yields_current hs.round_le hstop).bind fun arrivals _ harrivals => ?_
    have hfold := gained_foldlM finishes (c := c)
      (f := fun finishes arrival =>
        (c.egress.filter (·.stop == stop)).foldlM (c.finishBy arrival) finishes)
      (K := fun arrival e => ∃ leg ∈ c.egress.filter (·.stop == stop),
        (leg.onBoard = true ∨ arrival.2.onBoard = true) ∧
          e = (⟨arrival.1, leg⟩, c.finishCriteria arrival.2 leg))
      fun arrival (_ : arrival ∈ arrivals) front => gained_foldlM front
        (K := fun leg e => (leg.onBoard = true ∨ arrival.2.onBoard = true) ∧
          e = (⟨arrival.1, leg⟩, c.finishCriteria arrival.2 leg))
        fun leg _ front => yields_finishBy
    refine hfold.mono fun front' _ hfront' => hfront'.congr fun e => ?_
    constructor
    · rintro ⟨⟨id, label⟩, hmem, leg, hleg, hrides, rfl⟩
      obtain ⟨hholds, hround, hlstop, hiteration⟩ := (harrivals id label).mp hmem
      obtain ⟨hleg, hlegstop⟩ := hlegs.mp hleg
      exact ⟨label, hholds, hlstop, hround, hiteration, hleg, hlegstop, hrides, rfl⟩
    · rintro ⟨label, hholds, hlstop, hround, hiteration, hleg, hlegstop, hrides, hcriteria⟩
      obtain ⟨⟨id, leg⟩, criteria⟩ := e
      obtain rfl : criteria = c.finishCriteria label leg := hcriteria
      exact ⟨(id, label), (harrivals id label).mpr ⟨hholds, hround, hlstop, hiteration⟩, leg,
        hlegs.mpr ⟨hleg, hlegstop⟩, hrides, rfl⟩

/-- The finishes gain all journeys that end with a label of the round. -/
theorem yields_finish (hs : s.Sound c.direction c.stopCount maxRounds) :
    Yields (c.finish s) fun s' => ∃ finishes, s' = { s with finishes } ∧
      Front.Gained c.direction.dominatesJourney (c.FinishesWith s) s.finishes finishes := by
  have hfold := gained_foldlM s.finishes (c := c) (f := c.finishAt s) (K := c.FinishesAt s)
    fun stop (hstop : stop ∈ s.touched.toList) front => by
      refine yields_finishAt hs ?_
      have := IndexSet.lt_of_contains (IndexSet.mem_toList.mp hstop)
      rwa [hs.touched_size] at this
  refine hfold.bind fun front _ hfront => ⟨front, rfl, hfront.congr fun e => ?_⟩
  constructor
  · rintro ⟨stop, -, hfinishes⟩
    exact ⟨stop, hfinishes⟩
  · rintro ⟨stop, hfinishes⟩
    obtain ⟨label, hholds, rfl, hround, hiteration, -⟩ := id hfinishes
    exact ⟨_, IndexSet.mem_toList.mpr (hs.touched_of_current hholds.1 hiteration hround), hfinishes⟩

end

/-! ### Rounds -/

/-- What a round does. Legs that end the journey on board may follow the first labels before it. -/
inductive Round (c : LabelScene) (course : Course) (time : Time) : Labels → Labels → Prop
  | mk {s s₁ s₂ s₃ : Labels} {begun ended : Front Finish JourneyCriteria}
    (opening : Front.Gained c.direction.dominatesJourney
      (fun e => s.round = 0 ∧ c.FinishesWith s e) s.finishes begun)
    (rides : c.Tried course.maxRounds
      (fun l => ∃ i, c.RidesOn course.network ({ s with finishes := begun } : Labels).turn i l)
      ({ s with finishes := begun } : Labels).turn s₁)
    (seeds : c.Tried course.maxRounds
      (fun l => s₁.round = 1 ∧ ∃ leg ∈ course.onBoardAccess,
        l = c.seeded leg time s₁.round s₁.iteration) s₁ s₂)
    (walks : c.Tried course.maxRounds (c.Walks course.network s₂) s₂ s₃)
    (ending : Front.Gained c.direction.dominatesJourney (c.FinishesWith s₃) s₃.finishes ended)
    (decides : ∀ i, c.DecidesOn course.network ({ s with finishes := begun } : Labels).turn i) :
    Round c course time s { s₃ with finishes := ended }

/-- What a number of rounds does. -/
inductive Rounds (c : LabelScene) (course : Course) (time : Time) (s : Labels) :
    Nat → Labels → Prop
  | zero : Rounds c course time s 0 s
  | succ {count : Nat} {s' s'' : Labels} (before : Rounds c course time s count s')
    (last : c.Round course time s' s'') : Rounds c course time s (count + 1) s''

theorem Round.sound (h : c.Round course time s s') :
    s'.Sound c.direction c.stopCount course.maxRounds := by
  cases h with
  | mk _ _ _ walks _ _ => exact walks.sound.withFinishes _

theorem Round.round_eq (h : c.Round course time s s') : s'.round = s.round + 1 := by
  cases h with
  | mk _ rides seeds walks _ _ =>
    exact ((walks.round_eq).trans seeds.round_eq).trans rides.round_eq

theorem Round.iteration_eq (h : c.Round course time s s') : s'.iteration = s.iteration := by
  cases h with
  | mk _ rides seeds walks _ _ =>
    exact ((walks.iteration_eq).trans seeds.iteration_eq).trans rides.iteration_eq

/-- No label of the current iteration belongs to the round. -/
def Idle (s : Labels) : Prop :=
  ∀ {id : LabelId} {label : Label}, s.arena[id]? = some label → label.iteration = s.iteration →
    label.round ≠ s.round

/-- A round after one without labels adds none. -/
theorem Round.idle {begun : Front Finish JourneyCriteria} (time : Time)
    (hs : s.Sound c.direction c.stopCount course.maxRounds) (hround : s.round < course.maxRounds)
    (hidle : Idle s) (hseeds : s.round = 0 → course.onBoardAccess = [])
    (opening : Front.Gained c.direction.dominatesJourney
      (fun e => s.round = 0 ∧ c.FinishesWith s e) s.finishes begun) :
    c.Round course time s ({ s with finishes := begun } : Labels).turn ∧
      Idle ({ s with finishes := begun } : Labels).turn := by
  have hturn := (hs.withFinishes begun).turn hround
  have hidle' : Idle ({ s with finishes := begun } : Labels).turn := by
    intro id label hlabel hiteration hlround
    have := hturn.touched_of_current hlabel hiteration hlround
    rw [Labels.turn, IndexSet.contains_clear] at this
    cases this
  refine ⟨.mk opening (.none hturn ?_) (.none hturn ?_) (.none hturn ?_) (.none ?_) ?_, hidle'⟩
  · rintro l ⟨i, p, t, position, -, -, -, _, _, _, -, -, -, ⟨_, id, label, -, -, hholds, -, hlround,
      hiteration, -⟩, -⟩
    exact hidle hholds.1 hiteration (Nat.succ_injective hlround)
  · rintro l ⟨hfirst, leg, hleg, -⟩
    rw [hseeds (Nat.succ_injective hfirst)] at hleg
    cases hleg
  · rintro l ⟨_, id, label, w, hholds, -, hlround, hiteration, -⟩
    exact hidle' hholds.1 hiteration hlround
  · rintro e ⟨_, label, hholds, -, hlround, hiteration, -⟩
    exact hidle' hholds.1 hiteration hlround
  · intro i p t position _ _ _ id label hboards
    exact absurd (Nat.succ_injective hboards.round)
      (hidle hboards.holds.1 hboards.iteration)

/-- Once a round is without labels, the rest of the rounds may be taken to be made. -/
theorem Rounds.exists_idle {s₀ : Labels} (h : c.Rounds course time s₀ s.round s)
    (hs : s.Sound c.direction c.stopCount course.maxRounds) (hidle : Idle s) (hfirst : 1 ≤ s.round)
    {remaining : Nat} (hremaining : s.round + remaining = course.maxRounds) :
    ∃ s', c.Rounds course time s₀ course.maxRounds s' ∧ Idle s' ∧
      Labels.start time s' = Labels.start time s := by
  induction remaining generalizing s with
  | zero => exact ⟨s, by rwa [← hremaining], hidle, rfl⟩
  | succ remaining ih =>
    have hround : s.round < course.maxRounds := by omega
    obtain ⟨hstep, hidle'⟩ := Round.idle time hs hround hidle (fun hzero => by omega)
      (.none fun e (he : s.round = 0 ∧ c.FinishesWith s e) => by omega)
    have hturn : s.turn.round = s.round + 1 := rfl
    obtain ⟨s', hrounds, hidle'', hstart⟩ := ih (s := s.turn) (h.succ hstep) (hs.turn hround) hidle'
      (by omega) (by omega)
    refine ⟨s', hrounds, hidle'', hstart.trans ?_⟩
    simp only [Labels.start, Labels.turn, IndexSet.clear, IndexSet.size_empty, hs.touched_size,
      hs.reached_size, hs.ridden_size]

/-- Turning to a round makes the current arrivals those of the round before. It gains finishes only
if no round has been made yet. -/
theorem yields_advance (hs : s.Sound c.direction c.stopCount maxRounds) {round : Nat}
    (hround : s.round + 1 = round) :
    Yields (c.advance round s) fun turned => ∃ begun,
      turned = (!s.touched.isEmpty, ({ s with finishes := begun } : Labels).turn) ∧
      Front.Gained c.direction.dominatesJourney (fun e => s.round = 0 ∧ c.FinishesWith s e)
        s.finishes begun := by
  subst hround
  unfold advance
  by_cases hfirst : s.round = 0
  · simp only [hfirst, Nat.zero_add, if_true]
    refine (yields_finish hs).bind ?_
    rintro _ - ⟨begun, rfl, hgained⟩
    refine ⟨begun, ?_, hgained.congr fun e => by simp⟩
    rw [Labels.turn, hfirst]
  · simp only [Nat.add_eq_right, hfirst, if_false]
    exact ⟨s.finishes, rfl, .none fun e he => he.1.elim⟩

/-- The legs that start on board are taken in the first round. -/
theorem yields_boardRound {round : Nat} (hs : s.Sound c.direction c.stopCount maxRounds)
    (hround : s.round = round) :
    Yields (boardRound (labelScheme c) course time round s)
      (c.Tried maxRounds (fun l => s.round = 1 ∧ ∃ leg ∈ course.onBoardAccess,
        l = c.seeded leg time s.round s.iteration) s) := by
  unfold boardRound
  refine Yields.ite (fun hfirst => ?_) fun hlater => ?_
  · refine (Tried.foldlM (K := fun leg l => l = c.seeded leg time s.round s.iteration) hs
      fun leg _ s₁ kind htried => ?_).mono fun s' _ htried => ?_
    · rw [← htried.round_eq, ← htried.iteration_eq]
      exact yields_seed htried.sound
    · exact htried.congr fun l => by simp [hround, hfirst]
  · exact .none hs fun l hl => hlater (hround.symm.trans hl.1)

/-- The rounds of an iteration. With as many of them as a byte counts the last one is without
labels. -/
theorem yields_rounds (hnet : course.network.Sound) (hc : c.Of course.network)
    (hd : course.direction = c.direction)
    (hs : s.Sound c.direction c.stopCount course.maxRounds) (hround : s.round = 0)
    {progress : Progress Labels} (hstate : progress.state = s)
    (hmarks : progress.marks = .empty course.network.patternCount) :
    Yields (roundsFrom (labelScheme c) course time course.maxRounds 1 progress) fun progress' =>
      (∃ s', c.Rounds course time s course.maxRounds s' ∧ (course.maxRounds < 255 ∨ Idle s') ∧
        Labels.start time s' = Labels.start time progress'.state) ∧
      progress'.marks = .empty course.network.patternCount := by
  refine yields_roundsFrom (n := course.maxRounds + 1)
    (B := fun round state => (state.round + 1 = round ∧ round < 256) ∧
      state.Sound c.direction c.stopCount course.maxRounds ∧
      c.Rounds course time s state.round state)
    (D := fun state => ∃ s', c.Rounds course time s course.maxRounds s' ∧
      (course.maxRounds < 255 ∨ Idle s') ∧ Labels.start time s' = Labels.start time state)
    ?_ ?_ (Nat.add_comm _ _) hmarks ?_
  · rintro round state hlast ⟨⟨hnext, -⟩, hstate, hrounds⟩
    refine (yields_advance hstate hnext).mono ?_
    rintro _ - ⟨begun, rfl, hopening⟩
    have hlt : state.round < course.maxRounds := by omega
    have hturn := (hstate.withFinishes begun).turn hlt
    refine ⟨fun hstops => ?_, fun _ => ?_⟩
    · -- no label was left behind by the round before
      simp only [Course.goesOn, Bool.or_eq_false_iff, Bool.not_eq_false', Bool.and_eq_false_imp,
        beq_iff_eq] at hstops
      have hidle : Idle state := by
        intro id label hlabel hiteration hlround
        have := hstate.touched_of_current hlabel hiteration hlround
        rw [IndexSet.isEmpty_iff.mp hstops.1] at this
        cases this
      obtain ⟨hstep, hidle'⟩ := Round.idle time hstate hlt hidle
        (fun hzero => by simpa using hstops.2 (by omega)) hopening
      have hall : c.Rounds course time s ({ state with finishes := begun } : Labels).turn.round _ :=
        hrounds.succ hstep
      obtain ⟨s', hrounds', hidle'', hstart⟩ := hall.exists_idle hturn hidle'
        (Nat.succ_le_succ (Nat.zero_le _)) (Nat.add_sub_of_le hlt)
      exact ⟨s', hrounds', .inr hidle'', hstart⟩
    · refine (yields_transitRound hnet hc hd hturn (Nat.succ_le_succ (Nat.zero_le _))).mono ?_
      rintro ⟨s₁, _⟩ - ⟨⟨hrides, hdecides⟩, rfl⟩
      refine ⟨(yields_boardRound hrides.sound (hrides.round_eq.trans hnext)).mono
        fun s₂ _ hseeds => ?_, rfl⟩
      refine (yields_walkRound hnet hc hd hseeds.sound).mono fun s₃ _ hwalks => ?_
      refine (yields_finish hwalks.sound).mono ?_
      rintro _ - ⟨ended, rfl, hending⟩ hbyte
      have hstep : c.Round course time state { s₃ with finishes := ended } :=
        .mk hopening hrides hseeds hwalks hending hdecides
      have hround' := hstep.round_eq
      refine ⟨⟨by rw [hround', hnext], hbyte⟩, hstep.sound, ?_⟩
      have hall := hrounds.succ hstep
      rwa [← hround'] at hall
  · rintro state ⟨⟨hnext, hbyte⟩, -, hrounds⟩
    obtain hlast : state.round = course.maxRounds := Nat.succ_injective hnext
    rw [hlast] at hrounds
    exact ⟨state, hrounds, .inl (by omega), rfl⟩
  · rw [hstate]
    refine ⟨⟨by rw [hround], by omega⟩, hs, ?_⟩
    rw [hround]
    exact .zero

/-! ### Iterations -/

/-- What the iterations from some start times do, one after the other. -/
inductive Iterations (c : LabelScene) (course : Course) (s : Labels) : List Time → Labels → Prop
  | nil : Iterations c course s [] s
  | snoc {times : List Time} {time : Time} {s₁ s₂ s₃ : Labels}
    (before : Iterations c course s times s₁)
    (seeds : c.Tried course.maxRounds
      (fun l => ∃ leg ∈ course.walkingAccess, l = c.seeded leg time 0 (s₁.iteration + 1))
      (Labels.start time s₁) s₂)
    (rounds : c.Rounds course time s₂ course.maxRounds s₃)
    (ends : course.maxRounds < 255 ∨ Idle s₃) :
    Iterations c course s (times ++ [time]) s₃

theorem Rounds.sound {count : Nat} (h : c.Rounds course time s count s')
    (hs : s.Sound c.direction c.stopCount course.maxRounds) :
    s'.Sound c.direction c.stopCount course.maxRounds := by
  cases h with
  | zero => exact hs
  | succ _ last => exact last.sound

theorem Rounds.round_eq {count : Nat} (h : c.Rounds course time s count s') :
    s'.round = s.round + count := by
  induction h with
  | zero => rfl
  | succ _ last ih => rw [last.round_eq, ih, Nat.add_assoc]

theorem Iterations.sound {times : List Time} (h : c.Iterations course s times s')
    (hs : s.Sound c.direction c.stopCount course.maxRounds) :
    s'.Sound c.direction c.stopCount course.maxRounds := by
  cases h with
  | nil => exact hs
  | snoc _ seeds rounds => exact rounds.sound seeds.sound

/-- No finish is at least as good as another one. -/
theorem Round.clean (h : c.Round course time s s')
    (hclean : s.finishes.Clean c.direction.dominatesJourney) :
    s'.finishes.Clean c.direction.dominatesJourney := by
  cases h with
  | mk opening rides seeds walks ending _ =>
    refine ending.clean ?_
    rw [walks.finishes_eq, seeds.finishes_eq, rides.finishes_eq]
    exact opening.clean hclean

/-- Rounds keep the finishes clean. -/
theorem Rounds.clean {count : Nat} (h : c.Rounds course time s count s')
    (hclean : s.finishes.Clean c.direction.dominatesJourney) :
    s'.finishes.Clean c.direction.dominatesJourney := by
  induction h with
  | zero => exact hclean
  | succ _ last ih => exact last.clean ih

theorem Iterations.clean {times : List Time} (h : c.Iterations course s times s')
    (hclean : s.finishes.Clean c.direction.dominatesJourney) :
    s'.finishes.Clean c.direction.dominatesJourney := by
  induction h with
  | nil => exact hclean
  | snoc _ seeds rounds _ ih =>
    refine rounds.clean ?_
    rw [seeds.finishes_eq]
    exact ih

/-- A run makes the iterations from its start times, and leaves their labels and finishes. -/
theorem yields_run (hnet : course.network.Sound) (hc : c.Of course.network)
    (hd : course.direction = c.direction) {times : List Time} {progress : Progress Labels}
    (hs : progress.state.Sound c.direction c.stopCount course.maxRounds)
    (hmarks : progress.marks = .empty course.network.patternCount) :
    Yields (run (labelScheme c) course .unlimited progress times) fun progress' =>
      ∃ s', c.Iterations course progress.state times s' ∧
        s'.Sound c.direction c.stopCount course.maxRounds ∧
        s'.arena = progress'.state.arena ∧ s'.finishes = progress'.state.finishes := by
  refine (JourneyPlanner.yields_run (A := fun done state => ∃ s',
    c.Iterations course progress.state done s' ∧
    s'.Sound c.direction c.stopCount course.maxRounds ∧
    Labels.start 0 s' = Labels.start 0 state) hmarks ⟨_, .nil, hs, rfl⟩ ?_).mono ?_
  · rintro done time rest progress' - hmarks' ⟨s', hbefore, hsound, hstart⟩
    have hstart' : Labels.start time progress'.state = Labels.start time s' := hstart.symm
    have hs' := hsound.start time
    refine (yields_iterate (A := fun done state => c.Tried course.maxRounds
      (fun l => ∃ leg ∈ done, l = c.seeded leg time 0 (s'.iteration + 1))
      (Labels.start time s') state)
      (D := fun state => ∃ s'', c.Iterations course progress.state (done ++ [time]) s'' ∧
        s''.Sound c.direction c.stopCount course.maxRounds ∧
        Labels.start 0 s'' = Labels.start 0 state) hmarks' ?_ ?_ ?_)
    · show c.Tried course.maxRounds _ (Labels.start time s') (Labels.start time progress'.state)
      rw [hstart']
      exact .none hs' (by simp)
    · intro done leg rest state _ hdone
      have : Yields (c.seed leg time state) _ := yields_seed hdone.sound
      rw [hdone.round_eq, hdone.iteration_eq] at this
      exact this.mono fun state' _ hstate' =>
        (hdone.trans hstate').congr fun l => by simp [or_and_right, exists_or, Labels.start]
    · intro progress₁ hmarks₁ hseeds
      refine (yields_rounds hnet hc hd hseeds.sound (hseeds.round_eq.trans rfl) rfl hmarks₁).mono ?_
      rintro progress₂ - ⟨⟨s₂, hrounds, hends, hstart₂⟩, hmarks₂⟩
      have hall := hbefore.snoc hseeds hrounds hends
      exact ⟨⟨s₂, hall, hrounds.sound hseeds.sound, hstart₂⟩, hmarks₂⟩
  · rintro progress' - ⟨s', hiterations, hsound, hstart⟩
    exact ⟨s', hiterations, hsound, congrArg (·.arena) hstart, congrArg (·.finishes) hstart⟩

end LabelScene

end JourneyPlanner
