import JourneyPlanner.Proofs.Search.LabelRun

/-!
# Where labels come from

Every label of a search comes from a leg of the request, from a ride after an earlier label or from
a walk after an earlier ride, and every finish from a label.

* `LabelScene.Derived`: how a label comes about.
* `LabelScene.Justified`: all labels and finishes of a state have come about in one of these ways.
* `LabelScene.Iterations.justified`: so it is after any number of iterations.
-/

namespace JourneyPlanner

namespace LabelScene

/-- How a label comes about: by a leg of the request, by a ride after an earlier label, or by a walk
after an earlier ride. -/
inductive Derived (c : LabelScene) (course : Course) (s : Labels) : Label → Prop
  | access {leg : Connector} {start : Time} {iteration : Nat} (hleg : leg ∈ course.access) :
    Derived c course s (c.seeded leg start leg.onBoard.toNat iteration)
  | ride {i boardPosition position : Nat} {p : Pattern} {t : Timetable} {id : LabelId}
    {before : Label} {stop : StopId} {e : Boarded} {k : AboardCriteria}
    (hp : course.network.patterns[i]? = some p) (ht : course.network.timetables[i]? = some t)
    (hbefore : s.arena[id]? = some before) (hboardStop : p.stops[boardPosition]? = some before.stop)
    (hboards : c.direction.canBoard p boardPosition = .ok true)
    (hstop : p.stops[position]? = some stop)
    (halights : c.direction.canAlight p position = .ok true)
    (hprecedes : c.direction.precedes boardPosition position = true)
    (hchoose : c.choose s t (c.ruleSearch p) id before before.stop boardPosition =
      .ok (some (e, k))) :
    Derived c course s (c.alighted stop position (before.round + 1) before.iteration e)
  | walk {id : LabelId} {before : Label} {w : Walk} (hbefore : s.arena[id]? = some before)
    (honBoard : before.onBoard = true) (hwalk : course.network.HasWalk w)
    (hsource : c.direction.walkSource w = before.stop)
    (htarget : c.direction.walkTarget w ≠ before.stop) :
    Derived c course s (c.walked before.stop w id before)

/-- All labels and finishes have come about from labels and legs of the request. -/
structure Justified (c : LabelScene) (course : Course) (s : Labels) : Prop where
  label : ∀ {id : LabelId} {label : Label}, s.arena[id]? = some label → c.Derived course s label
  finish : ∀ {e : Finish × JourneyCriteria}, e ∈ s.finishes.entries →
    ∃ label, s.arena[e.1.label]? = some label ∧ e.1.leg ∈ c.egress ∧
      e.1.leg.stop = label.stop ∧ (e.1.leg.onBoard = true ∨ label.onBoard = true) ∧
      e.2 = c.finishCriteria label e.1.leg

variable {c : LabelScene} {course : Course} {s s₁ : Labels} {maxRounds : Nat}
  {kind : Label → Prop} {label : Label} {time : Time}

/-- The way in which a label came about remains. -/
theorem Derived.mono (h : c.Derived course s label)
    (hs : s.Sound c.direction c.stopCount maxRounds)
    (hkept : ∀ {id : LabelId} {l : Label}, s.arena[id]? = some l → s₁.arena[id]? = some l) :
    c.Derived course s₁ label := by
  cases h with
  | access hleg => exact .access hleg
  | ride hp ht hbefore hboardStop hboards hstop halights hprecedes hchoose =>
    rw [← choose_eq hs hkept hbefore] at hchoose
    exact .ride hp ht (hkept hbefore) hboardStop hboards hstop halights hprecedes hchoose
  | walk hbefore honBoard hwalk hsource htarget =>
    exact .walk (hkept hbefore) honBoard hwalk hsource htarget

namespace Justified

theorem tried (h : c.Justified course s) (hs : s.Sound c.direction c.stopCount maxRounds)
    (htried : c.Tried maxRounds kind s s₁) (hkind : ∀ l, kind l → c.Derived course s l) :
    c.Justified course s₁ where
  label := by
    intro id l hl
    obtain ⟨attempts, hoffered, hmade, -⟩ := htried.offered
    rcases hoffered.added hl with hl | ⟨hmem, -⟩
    · exact (h.label hl).mono hs htried.kept
    · exact (hkind l (hmade l hmem)).mono hs htried.kept
  finish := by
    intro e he
    rw [htried.finishes_eq] at he
    obtain ⟨label, hlabel, hrest⟩ := h.finish he
    exact ⟨label, htried.kept hlabel, hrest⟩

theorem gained (h : c.Justified course s) (hs : s.Sound c.direction c.stopCount maxRounds)
    {finishes : Front Finish JourneyCriteria} {gains : Finish × JourneyCriteria → Prop}
    (hgained : Front.Gained c.direction.dominatesJourney gains s.finishes finishes)
    (hgains : ∀ e, gains e → c.FinishesWith s e) : c.Justified course { s with finishes } where
  label hl := (h.label hl).mono hs id
  finish := by
    intro e he
    rcases hgained.entry he with he | he
    · exact h.finish he
    · obtain ⟨stop, label, hholds, hlstop, -, -, hleg, hlegstop, hrides, hcriteria⟩ := hgains e he
      exact ⟨label, hholds.1, hleg, hlegstop.trans hlstop.symm, hrides, hcriteria⟩

theorem turn (h : c.Justified course s) (hs : s.Sound c.direction c.stopCount maxRounds) :
    c.Justified course s.turn :=
  ⟨fun hl => (h.label hl).mono hs id, h.finish⟩

theorem start (h : c.Justified course s) (hs : s.Sound c.direction c.stopCount maxRounds) :
    c.Justified course (Labels.start time s) :=
  ⟨fun hl => (h.label hl).mono hs id, h.finish⟩

end Justified

theorem RidesOn.derived {i : Nat} (h : c.RidesOn course.network s i label) :
    c.Derived course s label := by
  obtain ⟨p, t, position, hp, ht, stop, boardPosition, e, k, hstop, halights, hprecedes,
    ⟨boardStop, id, before, hboardStop, hboards, hholds, rfl, hround, hiteration,
      hchoose⟩, rfl⟩ := h
  rw [← hround, ← hiteration]
  exact .ride hp ht hholds.1 hboardStop hboards hstop halights hprecedes hchoose

theorem Walks.derived (h : c.Walks course.network s label) : c.Derived course s label := by
  obtain ⟨_, id, before, w, hholds, rfl, -, -, honBoard, hwalk, hsource, htarget, rfl⟩ := h
  exact .walk hholds.1 honBoard hwalk hsource htarget

/-- A round adds labels and finishes that come from those before it. -/
theorem Round.justified (h : c.Round course time s s₁)
    (hs : s.Sound c.direction c.stopCount course.maxRounds)
    (hround : s.round < course.maxRounds) (hjustified : c.Justified course s) :
    c.Justified course s₁ := by
  cases h with
  | @mk _ _ _ begun _ opening rides seeds walks ending _ =>
    have hbegun := (hjustified.gained hs opening fun e he => he.2).turn (hs.withFinishes _)
    have hturn := (hs.withFinishes begun).turn hround
    have hrides := hbegun.tried hturn rides fun l ⟨_, hl⟩ => hl.derived
    have hseeds := hrides.tried rides.sound seeds fun l hl => by
      obtain ⟨hfirst, leg, hleg, rfl⟩ := hl
      obtain ⟨hleg, honBoard⟩ := List.mem_filter.mp hleg
      have hnat : leg.onBoard.toNat = 1 := by rw [honBoard]; rfl
      rw [hfirst, ← hnat]
      exact .access hleg
    have hwalks := hseeds.tried seeds.sound walks fun l hl => hl.derived
    exact hwalks.gained walks.sound ending fun e he => he

theorem Rounds.justified {count : Nat} (h : c.Rounds course time s count s₁)
    (hs : s.Sound c.direction c.stopCount course.maxRounds) (hround : s.round = 0)
    (hcount : count ≤ course.maxRounds) (hjustified : c.Justified course s) :
    c.Justified course s₁ := by
  induction h with
  | zero => exact hjustified
  | succ before last ih =>
    refine last.justified (before.sound hs) ?_ (ih (by omega))
    rw [before.round_eq, hround]
    omega

/-- All labels and finishes of a run have come about from labels and legs of the request. -/
theorem Iterations.justified {times : List Time} (h : c.Iterations course s times s₁)
    (hs : s.Sound c.direction c.stopCount course.maxRounds) (hjustified : c.Justified course s) :
    c.Justified course s₁ := by
  induction h with
  | nil => exact hjustified
  | snoc before seeds rounds _ ih =>
    have hstart := (before.sound hs).start
    refine rounds.justified seeds.sound (seeds.round_eq.trans rfl) le_rfl ?_
    refine (ih.start (before.sound hs)).tried (hstart _) seeds fun l hl => ?_
    obtain ⟨leg, hleg, rfl⟩ := hl
    obtain ⟨hleg, hwalks⟩ := List.mem_filter.mp hleg
    have hnat : leg.onBoard.toNat = 0 := by
      rw [Bool.not_eq_true'] at hwalks
      rw [hwalks]
      rfl
    rw [← hnat]
    exact .access hleg

/-- How labels and finishes came about does not depend on the rest of the state. -/
theorem Justified.congr (h : c.Justified course s) (hs : s.Sound c.direction c.stopCount maxRounds)
    (harena : s₁.arena = s.arena) (hfinishes : s₁.finishes = s.finishes) :
    c.Justified course s₁ where
  label := by
    intro id l hl
    rw [harena] at hl
    refine (h.label hl).mono hs fun hlabel => ?_
    rwa [harena]
  finish := by
    rw [hfinishes, harena]
    exact h.finish

theorem justified_new {stopCount : Nat} :
    c.Justified course (.new stopCount maxRounds) where
  label := by simp [Labels.new]
  finish := by simp [Labels.new]

end LabelScene

end JourneyPlanner
