import JourneyPlanner.Proofs.Refinement.Feasibility
import JourneyPlanner.Proofs.Search.Explored
import JourneyPlanner.Proofs.Search.Remaining

/-!
# Completeness of the search for labels

Whatever can follow a label leads to a finish that is no later and takes no more rides. A label that
is not followed itself is covered by one of this or an earlier iteration that is, or a finish found
before is at least as good as all that can follow; so an induction on what follows carries it from
any label that is held to the end.

* `LabelScene.Onward`: what can follow an arrival, with the time of its end.
* `LabelScene.Prompt`: no trip is boarded that is later than one that needs no rule.
* `LabelScene.Served`: all that can follow the labels that are held leads to finishes.
* `LabelScene.Explored.served`: an explored state serves the labels of its iteration.
* `LabelScene.Iterations.served`: all labels are served after any number of iterations.
* `LabelScene.Iterations.ends_onward`: what starts with a walk at the last start time leads to a
  finish.
-/

namespace JourneyPlanner

namespace LabelScene

/-- When a trip can be boarded after an arrival, at the first boarding or at a later one. -/
def readyAt (c : LabelScene) (started : Bool) (time : Time) : Time :=
  c.direction.shift time
    (c.slacks.beforeBoarding c.direction + if started then c.slacks.transfer else 0)

/-- What can follow an arrival at a stop: whether a ride came before, whether the arrival is on
board, its time, the rides that follow, their seconds and cost without waits and slacks, and the
time of the end. After each ride and walk less than the time that stands for unreached stops
remains. -/
inductive Onward (c : LabelScene) (net : Network) :
    Bool → StopId → Bool → Time → Nat → Span → Cost → Time → Prop
  | finish {started : Bool} {leg : Connector} {time : Time} (hleg : leg ∈ c.egress)
    (hwalks : leg.onBoard = false) (hstop : leg.stop < net.stopCount) :
    Onward c net started leg.stop true time 0 leg.duration leg.cost
      (c.direction.shift time leg.duration)
  | ride {started onBoard : Bool} {i boardPosition position stop target rides : Nat} {p : Pattern}
    {t : Timetable} {trip : Trip} {time ending : Time} {duration : Span} {cost : Cost}
    (hp : net.patterns[i]? = some p) (ht : net.timetables[i]? = some t) (htrip : trip ∈ t.trips)
    (hruns : c.runs trip = true) (hstop : p.stops[boardPosition]? = some stop)
    (hboards : c.direction.canBoard p boardPosition = .ok true)
    (htarget : p.stops[position]? = some target)
    (halights : c.direction.canAlight p position = .ok true)
    (hprecedes : c.direction.precedes boardPosition position = true)
    (hinTime : c.direction.NoLater (c.readyAt started time)
      (c.direction.boardingAt trip boardPosition))
    (after : Onward c net true target true (c.direction.shift
      (c.direction.alightingAt trip position)
      (c.slacks.afterAlighting c.direction)) rides duration cost ending)
    (hshort : duration < unreached) :
    Onward c net started stop onBoard time (rides + 1)
      (duration + c.direction.gap (c.direction.boardingAt trip boardPosition)
        (c.direction.alightingAt trip position))
      (cost + (c.tariff.transitFactor trip.reluctance *
        c.direction.gap (c.direction.boardingAt trip boardPosition)
          (c.direction.alightingAt trip position) +
        c.tariff.leastBoarding c.rules c.direction p.id boardPosition)) ending
  | walk {started : Bool} {rides : Nat} {w : Walk} {time ending : Time} {duration : Span}
    {cost : Cost} (hwalk : net.HasWalk w)
    (hleaves : c.direction.walkTarget w ≠ c.direction.walkSource w)
    (after : Onward c net started (c.direction.walkTarget w) false
      (c.direction.shift time w.duration) rides duration cost ending)
    (hshort : duration < unreached) :
    Onward c net started (c.direction.walkSource w) true time rides (duration + w.duration)
      (cost + c.tariff.walk * w.duration) ending

/-- Where it is known which trip is boarded after a label, there is one if any trip can be boarded
without rules, and it is left no later than that trip. -/
def Prompt (c : LabelScene) (course : Course) : Prop :=
  ∀ ⦃s : Labels⦄ ⦃id : LabelId⦄ ⦃label : Label⦄ ⦃i boardPosition position target : Nat⦄ ⦃p : Pattern⦄
    ⦃t : Timetable⦄ ⦃trip : Trip⦄ ⦃chosen : Option (Boarded × AboardCriteria)⦄,
    s.Sound c.direction c.stopCount course.maxRounds → c.Justified course s →
    s.arena[id]? = some label → course.network.patterns[i]? = some p →
    course.network.timetables[i]? = some t → trip ∈ t.trips → c.runs trip = true →
    p.stops[boardPosition]? = some label.stop → c.direction.canBoard p boardPosition = .ok true →
    p.stops[position]? = some target → c.direction.canAlight p position = .ok true →
    c.direction.precedes boardPosition position = true →
    c.direction.NoLater (c.earliest label) (c.direction.boardingAt trip boardPosition) →
    c.choose s t (c.ruleSearch p) id label label.stop boardPosition = .ok chosen →
    ∃ e k, chosen = some (e, k) ∧ c.direction.NoLater (c.direction.alightingAt e.trip position)
      (c.direction.alightingAt trip position)

/-- A finish is no later than a time and has no more transfers than a number. -/
def Ends (c : LabelScene) (finishes : Front Finish JourneyCriteria) (time : Time)
    (transfers : Nat) : Prop :=
  ∃ e ∈ finishes.entries, c.direction.NoLater e.2.time time ∧ e.2.transfers ≤ transfers

/-- A label from which all can follow that can follow an arrival. -/
structure Serves (c : LabelScene) (label : Label) (started : Bool) (stop : StopId) (onBoard : Bool)
    (time : Time) : Prop where
  stop_eq : label.stop = stop
  time_noLater : c.direction.NoLater label.time time
  onBoard : onBoard = true → label.onBoard = true
  started : label.round ≠ 0 → started = true

/-- All that can follow the labels that are held leads to finishes that are no later, with no more
rides. -/
def Served (c : LabelScene) (course : Course) (s : Labels) : Prop :=
  ∀ ⦃started : Bool⦄ ⦃stop : StopId⦄ ⦃onBoard : Bool⦄ ⦃time : Time⦄ ⦃rides : Nat⦄ ⦃duration : Span⦄
    ⦃cost : Cost⦄ ⦃ending : Time⦄,
    c.Onward course.network started stop onBoard time rides duration cost ending →
    duration < unreached → ∀ ⦃id : LabelId⦄ ⦃label : Label⦄, s.Holds id label →
    c.Serves label started stop onBoard time → course.Allows (label.round + rides) →
    c.Ends s.finishes ending (label.round + rides - 1)

variable {c : LabelScene} {net : Network} {course : Course} {s s₁ : Labels} {maxRounds rides : Nat}
  {id : LabelId} {label l : Label} {started onBoard : Bool} {stop : StopId} {time ending : Time}
  {duration : Span} {cost : Cost} {finishes finishes' : Front Finish JourneyCriteria}
    {transfers : Nat}

/-! ### Ends -/

theorem ends_of_covers {k : JourneyCriteria}
    (h : finishes.covers c.direction.dominatesJourney k = true)
    (htime : c.direction.NoLater k.time time) (htransfers : k.transfers ≤ transfers) :
    c.Ends finishes time transfers := by
  obtain ⟨e, he, hdom⟩ := Front.covers_iff.mp h
  obtain ⟨hetime, hetransfers, -⟩ := Direction.dominatesJourney_iff.mp hdom
  exact ⟨e, he, hetime.trans htime, hetransfers.trans htransfers⟩

theorem Ends.mono (h : c.Ends finishes time transfers)
    (hkept : ∀ ⦃k : JourneyCriteria⦄, finishes.covers c.direction.dominatesJourney k = true →
      finishes'.covers c.direction.dominatesJourney k = true) {more : Nat}
    (hmore : transfers ≤ more) : c.Ends finishes' time more := by
  obtain ⟨e, he, htime, htransfers⟩ := h
  have hcovers := Front.covers_of_mem he (c.direction.dominatesJourney_isOrder.refl e.2)
  exact ends_of_covers (hkept hcovers) htime (htransfers.trans hmore)

/-! ### What remains -/

/-- What can follow an arrival remains of a journey. -/
theorem Onward.remains (h : c.Onward net started stop onBoard time rides duration cost ending) :
    ∃ rideFirst,
      net.Remains c.direction c.tariff c.rules c.egress stop rideFirst rides duration cost ∧
      (onBoard = false → rideFirst = true) := by
  induction h with
  | finish hleg hwalks hstop =>
    have hremains : net.Remains c.direction c.tariff c.rules c.egress _ _ _ _ _ :=
      .finish hleg hstop
    rw [hwalks] at hremains
    exact ⟨_, hremains, by simp⟩
  | ride hp ht htrip hruns hstop hboards htarget halights hprecedes hinTime after hshort ih =>
    obtain ⟨rideFirst, hremains, -⟩ := ih
    exact ⟨_, .ride hp ht htrip hstop hboards htarget halights hprecedes hremains hshort,
      fun _ => rfl⟩
  | walk hwalk hleaves after hshort ih =>
    obtain ⟨rideFirst, hremains, hfirst⟩ := ih
    obtain rfl := hfirst rfl
    exact ⟨_, .walk hwalk hremains hshort, by simp⟩

/-- What can follow an arrival can follow one that is at least as good, and ends no later. -/
theorem Onward.sooner (h : c.Onward net started stop onBoard time rides duration cost ending)
    (hslacks : c.slacks.Nonneg) {started' onBoard' : Bool} {time' : Time}
    (hstarted : started' = true → started = true) (honBoard : onBoard = true → onBoard' = true)
    (htime : c.direction.NoLater time' time) :
    ∃ ending', c.Onward net started' stop onBoard' time' rides duration cost ending' ∧
      c.direction.NoLater ending' ending := by
  have htransfer := hslacks.transfer
  induction h generalizing started' onBoard' time' with
  | finish hleg hwalks hstop =>
    obtain rfl := honBoard rfl
    exact ⟨_, .finish hleg hwalks hstop, htime.shift le_rfl⟩
  | ride hp ht htrip hruns hstop hboards htarget halights hprecedes hinTime after hshort =>
    refine ⟨_, .ride hp ht htrip hruns hstop hboards htarget halights hprecedes ?_ after
      hshort, .refl⟩
    refine (htime.shift ?_).trans hinTime
    cases started' with
    | true => rw [hstarted rfl]
    | false =>
      rw [if_neg Bool.false_ne_true]
      split <;> linarith
  | walk hwalk hleaves after hshort ih =>
    obtain rfl := honBoard rfl
    obtain ⟨ending', honward, hending⟩ := ih hstarted (by simp) (htime.shift le_rfl)
    exact ⟨ending', .walk hwalk hleaves honward hshort, hending⟩

/-- What follows an arrival takes at least its seconds. -/
theorem Onward.noLater (h : c.Onward net started stop onBoard time rides duration cost ending)
    (hslacks : c.slacks.Nonneg) :
    c.direction.NoLater (c.direction.shift time duration) ending := by
  have hbefore := hslacks.beforeBoarding c.direction
  have hafter := hslacks.afterAlighting c.direction
  have htransfer := hslacks.transfer
  induction h with
  | finish => exact .refl
  | @ride started _ _ boardPosition position _ _ _ _ _ trip time ending duration _ _ _ _ _ _ _ _ _ _
      hinTime _ _ ih =>
    rw [Direction.shift_noLater_iff] at ih ⊢
    rw [readyAt, Direction.shift_noLater_iff] at hinTime
    rw [Direction.gap_shift_left] at ih
    have hboard := Direction.gap_add_gap (d := c.direction) (a := time)
      (b := c.direction.boardingAt trip boardPosition) (c := c.direction.alightingAt trip position)
    have halight := Direction.gap_add_gap (d := c.direction) (a := time)
      (b := c.direction.alightingAt trip position) (c := ending)
    split at hinTime <;> linarith
  | walk _ _ _ _ ih =>
    rwa [Direction.shift_shift, Int.add_comm] at ih

/-- A label through which no journey can be better than those found needs not be followed. -/
theorem HopelessLabel.ends (h : c.HopelessLabel s l)
    (hbelow : ∀ bounds, c.bounds = some bounds → bounds.Below course c.tariff c.rules c.egress)
    (hd : course.direction = c.direction) (hslacks : c.slacks.Nonneg)
    (honward : c.Onward course.network started stop onBoard time rides duration cost ending)
    (hshort : duration < unreached) (hserves : c.Serves l started stop onBoard time)
    (hallowed : course.Allows rides) : c.Ends s.finishes ending (l.round + rides - 1) := by
  obtain ⟨bounds, hbounds, hcovers⟩ := h
  obtain ⟨rideFirst, hremains, -⟩ := honward.remains
  rw [← hd] at hremains
  obtain ⟨b, hb, hduration, htransfers, -⟩ := hbelow bounds hbounds hremains hallowed hshort
  rw [← hserves.stop_eq] at hb
  refine ends_of_covers (hcovers b hb) ?_ ?_
  · exact (hserves.time_noLater.shift hduration).trans (honward.noLater hslacks)
  · show min (l.round + b.transfers) 255 - 1 ≤ l.round + rides - 1
    omega

/-- A settled label needs not be followed if those that are held are. -/
theorem Settled.ends (h : c.Settled s l) (hs : s.Sound c.direction c.stopCount maxRounds)
    (hbelow : ∀ bounds, c.bounds = some bounds → bounds.Below course c.tariff c.rules c.egress)
    (hd : course.direction = c.direction) (hslacks : c.slacks.Nonneg)
    (honward : c.Onward course.network started stop onBoard time rides duration cost ending)
    (hshort : duration < unreached) (hserves : c.Serves l started stop onBoard time)
    (hallowed : course.Allows (l.round + rides))
    (hheld : ∀ ⦃id : LabelId⦄ ⦃label : Label⦄, s.Holds id label →
      c.Serves label started stop onBoard time → course.Allows (label.round + rides) →
      c.Ends s.finishes ending (label.round + rides - 1)) :
    c.Ends s.finishes ending (l.round + rides - 1) := by
  obtain ⟨better, hbetter, hcovered | hhopeless⟩ := h
  · obtain ⟨id, label, hholds, hstop, hround, hdom⟩ := hs.exists_of_coveredBy hcovered
    obtain ⟨htime, -, honBoard⟩ := Direction.dominatesAtStop_iff.mp hdom
    rw [hbetter.round] at hround
    have hserves' : c.Serves label started stop onBoard time := by
      refine ⟨hstop.trans (hbetter.stop.trans hserves.stop_eq), ?_, fun hon => ?_, fun hne => ?_⟩
      · exact htime.trans (hbetter.time.trans hserves.time_noLater)
      · exact honBoard (hbetter.onBoard.trans (hserves.onBoard hon))
      · exact hserves.started (by omega)
    exact (hheld hholds hserves' (hallowed.mono (by omega))).mono (fun _ h => h) (by omega)
  · have hserves' : c.Serves better started stop onBoard time := by
      refine ⟨hbetter.stop.trans hserves.stop_eq, hbetter.time.trans hserves.time_noLater,
        fun hon => hbetter.onBoard.trans (hserves.onBoard hon), fun hne => ?_⟩
      rw [hbetter.round] at hne
      exact hserves.started hne
    have := hhopeless.ends hbelow hd hslacks honward hshort hserves' (hallowed.mono (by omega))
    rwa [hbetter.round] at this

/-! ### Labels that are served -/

theorem earliest_noLater (hserves : c.Serves label started stop onBoard time)
    (hslacks : c.slacks.Nonneg) :
    c.direction.NoLater (c.earliest label) (c.readyAt started time) := by
  have htransfer := hslacks.transfer
  refine hserves.time_noLater.shift ?_
  by_cases hround : label.round = 0
  · rw [if_pos hround]
    split <;> linarith
  · rw [if_neg hround, if_pos (hserves.started hround)]

/-- A regular boarding takes a trip if any can be boarded, and no other one is left before it. -/
theorem exists_of_choose_regular {t : Timetable} {length i position : Nat} {trip : Trip}
    {chosen : Option (Boarded × AboardCriteria)} (ht : t.Sound length) (hi : i < length)
    (htrip : trip ∈ t.trips) (hruns : c.runs trip = true)
    (hinTime : c.direction.NoLater (c.earliest label) (c.direction.boardingAt trip i))
    (hchoose : c.choose s t none id label stop i = .ok chosen) :
    ∃ e k, chosen = some (e, k) ∧ c.direction.NoLater (c.direction.alightingAt e.trip position)
      (c.direction.alightingAt trip position) := by
  obtain ⟨rank, hrank⟩ := Array.mem_iff_getElem?.mp htrip
  obtain ⟨found, hfound, hbest, hget⟩ :=
    (ht.yields_bestTrip hi c.direction c.runs (c.earliest label)).exists_ok
      Timetable.bestTrip_ne_overflow
  rw [choose_eq_bestTrip, hfound] at hchoose
  obtain rfl := Except.ok.inj hchoose
  cases found with
  | none => exact absurd hinTime (hbest rank trip hrank hruns)
  | some ranked =>
    obtain ⟨first, trip'⟩ := ranked
    obtain ⟨_, -, -, -, hfirst⟩ := hbest
    exact ⟨_, _, rfl, ht.alightingAt_noLater (hfirst rank trip hrank hruns hinTime)
      (hget first trip' rfl) hrank position⟩

/-- Without rules the first trip is boarded that can be, and no other one is left before it. -/
theorem prompt_of_unruled (hnet : course.network.Sound) (hrules : c.rules = none) :
    c.Prompt course := by
  intro s id label i boardPosition position target p t trip chosen _ _ _ hp ht htrip hruns hstop _
    _ _ _ hinTime hchoose
  rw [ruleSearch_eq_none hrules] at hchoose
  exact exists_of_choose_regular (hnet.timetable_sound hp ht)
    (Array.getElem?_eq_some_iff.mp hstop).1 htrip hruns hinTime hchoose

/-- At the end of an iteration its labels are served if those of the iterations before are. -/
theorem Explored.served (hexplored : c.Explored course.network s)
    (hs : s.Sound c.direction c.stopCount course.maxRounds) (hj : c.Justified course s)
    (hd : course.direction = c.direction) (hprompt : c.Prompt course) (hslacks : c.slacks.Nonneg)
    (hbelow : ∀ bounds, c.bounds = some bounds → bounds.Below course c.tariff c.rules c.egress)
    (hround : s.round = course.maxRounds) (hends : course.maxRounds < 255 ∨ Idle s)
    (hgrows : c.Grows (Labels.start time s₁) s) (hserved : c.Served course s₁) :
    c.Served course s := by
  intro started stop onBoard time rides duration cost ending honward
  induction honward with
  | @finish started leg time hleg hwalks hstop =>
    intro hshort id label hholds hserves hallowed
    rcases hgrows.held hholds with hbefore | hcurrent
    · exact (hserved (.finish hleg hwalks hstop) hshort hbefore hserves hallowed).mono
        hgrows.finishes le_rfl
    · refine ends_of_covers (hexplored.ends hholds hcurrent (hserves.onBoard rfl) hleg
        hserves.stop_eq.symm) ?_ ?_
      · exact hserves.time_noLater.shift le_rfl
      · show min (label.round + leg.onBoard.toNat) 255 - 1 ≤ label.round + 0 - 1
        rw [hwalks, Bool.toNat_false]
        omega
  | @ride started onBoard i boardPosition position stop target rides p t trip time ending
    duration cost hp
      ht htrip hruns hstop hboards htarget halights hprecedes hinTime after hshort' ih =>
    intro hshort id label hholds hserves hallowed
    rcases hgrows.held hholds with hbefore | hcurrent
    · exact (hserved (.ride hp ht htrip hruns hstop hboards htarget halights hprecedes hinTime after
        hshort') hshort hbefore hserves hallowed).mono hgrows.finishes le_rfl
    -- the rides after the label have been tried, unless it is one of the last round
    have hless : label.round < s.round := by
      rcases hends with hfew | hidle
      · have := hallowed hfew
        omega
      · exact lt_of_le_of_ne (hs.round_of_current hholds.1 hcurrent) (hidle hholds.1 hcurrent)
    rw [← hserves.stop_eq] at hstop
    have hsome : t.size ≠ 0 := by
      have := Array.size_pos_of_mem htrip
      exact this.ne'
    obtain ⟨chosen, hchoose⟩ := hexplored.decides hholds hcurrent hless hp ht hsome hstop hboards
    obtain ⟨e, k, rfl, hfirst⟩ := hprompt hs hj hholds.1 hp ht htrip hruns hstop hboards htarget
      halights hprecedes ((earliest_noLater hserves hslacks).trans hinTime) hchoose
    have hsettled := hexplored.rides hholds hcurrent hless
      ⟨i, boardPosition, position, target, p, t, e, k, hp, ht, hstop, hboards, htarget, halights,
        hprecedes, hchoose, rfl⟩
    have hafter : c.Serves (c.alighted target position (label.round + 1) label.iteration e) true
        target true (c.direction.shift (c.direction.alightingAt trip position)
          (c.slacks.afterAlighting c.direction)) :=
      ⟨rfl, hfirst.shift le_rfl, fun _ => rfl, fun _ => rfl⟩
    have hrides : label.round + (rides + 1) = label.round + 1 + rides := by omega
    rw [hrides] at hallowed ⊢
    exact hsettled.ends hs hbelow hd hslacks after hshort' hafter hallowed (ih hshort')
  | @walk started rides w time ending duration cost hwalk hleaves after hshort' ih =>
    intro hshort id label hholds hserves hallowed
    rcases hgrows.held hholds with hbefore | hcurrent
    · exact (hserved (.walk hwalk hleaves after hshort') hshort hbefore hserves hallowed).mono
        hgrows.finishes le_rfl
    have hsource := hserves.stop_eq
    rw [← hsource] at hleaves
    have hsettled := hexplored.walks hholds hcurrent (hserves.onBoard rfl) hwalk
      hsource.symm hleaves
    have hafter : c.Serves (c.walked label.stop w id label) started (c.direction.walkTarget w) false
        (c.direction.shift time w.duration) :=
      ⟨rfl, hserves.time_noLater.shift le_rfl, by simp, hserves.started⟩
    exact hsettled.ends hs hbelow hd hslacks after hshort' hafter hallowed (ih hshort')

/-! ### Runs -/

/-- Before the rounds of an iteration nothing can follow its labels but rides. -/
theorem explored_of_seeds (hs : s.Sound c.direction c.stopCount maxRounds)
    (seeds : c.Tried maxRounds
      (fun l => ∃ leg ∈ course.walkingAccess, l = c.seeded leg time 0 (s.iteration + 1))
      (Labels.start time s) s₁) : c.Explored net s₁ := by
  have hiteration : s₁.iteration = s.iteration + 1 := seeds.iteration_eq
  have hround : s₁.round = 0 := seeds.round_eq
  have hwalks : ∀ {id : LabelId} {label : Label}, s₁.Holds id label →
      label.iteration = s₁.iteration → label.onBoard = false := by
    intro id label hholds hcurrent
    obtain ⟨attempts, hoffered, hmade, -⟩ := seeds.offered
    rcases hoffered.held hholds with hbefore | ⟨hmem, -⟩
    · have := hs.iteration_le hbefore.1
      omega
    · obtain ⟨leg, hleg, rfl⟩ := hmade label hmem
      exact (Bool.not_eq_true' _).mp (List.mem_filter.mp hleg).2
  constructor
  · intro id label leg hholds hcurrent honBoard
    rw [hwalks hholds hcurrent] at honBoard
    cases honBoard
  · intro id label w hholds hcurrent honBoard
    rw [hwalks hholds hcurrent] at honBoard
    cases honBoard
  · intro id label l _ _ hless
    rw [hround] at hless
    exact absurd hless (Nat.not_lt_zero _)
  · intro i position p t id label _ _ hless
    rw [hround] at hless
    exact absurd hless (Nat.not_lt_zero _)

theorem grows_of_seeds (seeds : c.Tried maxRounds
    (fun l => ∃ leg ∈ course.walkingAccess, l = c.seeded leg time 0 (s.iteration + 1))
    (Labels.start time s) s₁) : c.Grows (Labels.start time s) s₁ :=
  seeds.grows fun l ⟨leg, _, hl⟩ => by
    rw [hl]
    rfl

/-- The first iterations lead to a state, and what its finishes cover stays covered. -/
theorem Iterations.exists_before {before after : List Time}
    (h : c.Iterations course s (before ++ after) s₁) :
    ∃ s', c.Iterations course s before s' ∧ ∀ ⦃k : JourneyCriteria⦄,
      s'.finishes.covers c.direction.dominatesJourney k = true →
      s₁.finishes.covers c.direction.dominatesJourney k = true := by
  generalize htimes : before ++ after = times at h
  induction h generalizing after with
  | nil =>
    obtain ⟨rfl, rfl⟩ := List.append_eq_nil_iff.mp htimes
    exact ⟨s, .nil, fun _ => id⟩
  | snoc first seeds rounds ends ih =>
    rcases List.eq_nil_or_concat after with rfl | ⟨rest, last, rfl⟩
    · rw [List.append_nil] at htimes
      exact ⟨_, htimes ▸ first.snoc seeds rounds ends, fun _ => id⟩
    · rw [List.concat_eq_append, ← List.append_assoc] at htimes
      obtain ⟨s', hbefore, hkept⟩ := ih (List.append_inj' htimes rfl).1
      exact ⟨s', hbefore, fun _ hk =>
        ((grows_of_seeds seeds).trans rounds.grows).finishes (hkept hk)⟩

/-- All labels are served after any number of iterations. -/
theorem Iterations.served {times : List Time} (h : c.Iterations course s times s₁)
    (hs : s.Sound c.direction c.stopCount course.maxRounds) (hj : c.Justified course s)
    (hnet : course.network.Sound) (hc : c.Of course.network)
    (hd : course.direction = c.direction) (hprompt : c.Prompt course) (hslacks : c.slacks.Nonneg)
    (hbelow : ∀ bounds, c.bounds = some bounds → bounds.Below course c.tariff c.rules c.egress)
    (hserved : c.Served course s) : c.Served course s₁ := by
  induction h with
  | nil => exact hserved
  | snoc before seeds rounds ends ih =>
    have hjustified := (before.snoc seeds rounds ends).justified hs hj
    have hround := seeds.round_eq
    have hexplored := rounds.explored hnet hc seeds.sound hround le_rfl
      (explored_of_seeds (before.sound hs) seeds)
    refine hexplored.served (rounds.sound seeds.sound) hjustified hd hprompt hslacks hbelow ?_ ends
      ((grows_of_seeds seeds).trans rounds.grows) ih
    rw [rounds.round_eq, hround]
    exact Nat.zero_add _

/-- What can follow a walk from the origin at the last start time leads to a finish. -/
theorem Iterations.ends_onward {times before : List Time}
    (h : c.Iterations course s times s₁) (htimes : times = before ++ [time])
    (hs : s.Sound c.direction c.stopCount course.maxRounds) (hj : c.Justified course s)
    (hnet : course.network.Sound) (hc : c.Of course.network)
    (hd : course.direction = c.direction) (hprompt : c.Prompt course) (hslacks : c.slacks.Nonneg)
    (hbelow : ∀ bounds, c.bounds = some bounds → bounds.Below course c.tariff c.rules c.egress)
    (hserved : c.Served course s) {leg : Connector} (hleg : leg ∈ course.walkingAccess)
    (hstop : leg.stop < c.stopCount)
    (honward : c.Onward course.network false leg.stop false (c.direction.shift time leg.duration)
      rides duration cost ending) (hshort : duration < unreached) (hallowed : course.Allows rides) :
    c.Ends s₁.finishes ending (rides - 1) := by
  have hall := h.served hs hj hnet hc hd hprompt hslacks hbelow hserved
  cases h with
  | nil => simp at htimes
  | @snoc times time' s₁ _ _ before seeds rounds ends =>
    obtain ⟨-, htime⟩ := List.append_inj' htimes rfl
    obtain rfl := List.singleton_inj.mp htime
    have hsettled := (seeds.settled (l := c.seeded leg time' 0 (s₁.iteration + 1))
      ⟨leg, hleg, rfl⟩ hstop).grows rounds.grows
    have hserves : c.Serves (c.seeded leg time' 0 (s₁.iteration + 1)) false leg.stop false
        (c.direction.shift time' leg.duration) :=
      ⟨rfl, .refl, by simp, fun hne => absurd rfl hne⟩
    have hrides : (c.seeded leg time' 0 (s₁.iteration + 1)).round + rides = rides :=
      Nat.zero_add _
    have hends := hsettled.ends (rounds.sound seeds.sound) hbelow hd hslacks honward hshort hserves
      (by rwa [hrides]) (hall honward hshort)
    rwa [hrides] at hends

/-- Before any iteration there is nothing to serve. -/
theorem served_new {stopCount : Nat} : c.Served course (.new stopCount maxRounds) := by
  intro _ _ _ _ _ _ _ _ _ _ id label hholds
  simp [Labels.Holds, Labels.new] at hholds

end LabelScene

end JourneyPlanner
