import JourneyPlanner.Proofs.Search.Assertions
import JourneyPlanner.Proofs.Search.LabelRun

/-!
# How the labels of a search hang together

A label is added by a leg of the request, on foot or on board, at the end of a ride or at the end of
a walk, and fronts drop labels while others are added. Throughout, every label leads back to a leg
of the request, and the fronts of a stop only hold labels that were worth adding.

* `Labels.Linked`: the label that a label comes from.
* `Labels.Coherent`: what the labels, the fronts and the finishes have in common in every state.
* `Labels.Coherent.register`: one more label keeps it.
* `LabelScene.keeps_inOrder`: so do all operations of the search.
-/

namespace JourneyPlanner

namespace Labels

/-- A label comes from a leg of the request, or from an earlier label of its iteration: by a ride
from a label of the round before at the stop where the trip was boarded, by a walk from one on board
of the same round at another stop. -/
inductive Linked (s : Labels) (course : Course) (id : LabelId) (label : Label) : Prop
  | access {leg : Connector} (horigin : label.origin = .access leg) (hleg : leg ∈ course.access)
  | ride {ride : SearchRide} {previous : LabelId} {before : Label}
    (horigin : label.origin = .ride ride previous) (hearlier : previous < id)
    (hbefore : s.arena[previous]? = some before) (hiteration : before.iteration = label.iteration)
    (hround : before.round + 1 = label.round) (hstop : before.stop = ride.boardStop)
  | walk {source : StopId} {duration : Span} {previous : LabelId} {before : Label}
    (horigin : label.origin = .walk source duration previous) (hearlier : previous < id)
    (hbefore : s.arena[previous]? = some before) (hiteration : before.iteration = label.iteration)
    (hround : before.round = label.round) (honBoard : before.onBoard = true)
    (hstop : before.stop = source) (hleaves : source ≠ label.stop)

/-- All labels are linked. A front holds labels of its round and stop with their criteria, none of
them at least as good as another one, and none at least as good as a later one of the same round or
of one after it. Finishes follow labels, and none of them is at least as good as another one. -/
structure Coherent (s : Labels) (course : Course) : Prop where
  linked : ∀ {id : LabelId} {label : Label}, s.arena[id]? = some label → s.Linked course id label
  entry : ∀ {round stop : Nat} {e : LabelId × StopCriteria}, e ∈ (s.frontAt round stop).entries →
    ∃ label, s.arena[e.1]? = some label ∧ label.stop = stop ∧ label.round = round ∧
      label.criteria = e.2
  clean : ∀ round stop, (s.frontAt round stop).Clean course.direction.dominatesAtStop
  later : ∀ {round round' stop : Nat} {e e' : LabelId × StopCriteria},
    e ∈ (s.frontAt round stop).entries → e' ∈ (s.frontAt round' stop).entries → round ≤ round' →
    e.1 < e'.1 → course.direction.dominatesAtStop e.2 e'.2 = false
  finish : ∀ {e : Finish × JourneyCriteria}, e ∈ s.finishes.entries →
    ∃ label, s.arena[e.1.label]? = some label ∧ label.stop = e.1.leg.stop
  best : s.finishes.Clean course.direction.dominatesJourney

/-- A state later in the same round. -/
structure Grows (s s' : Labels) : Prop where
  kept : ∀ {id : LabelId} {label : Label}, s.arena[id]? = some label → s'.arena[id]? = some label
  round_eq : s'.round = s.round
  iteration_eq : s'.iteration = s.iteration

/-- The trips on board were boarded after labels of the round before. -/
def BoardedAfter (s : Labels) (aboard : Aboard) : Prop :=
  ∀ e ∈ aboard.front.entries, ∃ before, s.arena[e.1.previous]? = some before ∧
    before.round + 1 = s.round ∧ before.iteration = s.iteration ∧ before.stop = e.1.stop

variable {s s' s'' : Labels} {course : Course} {stopCount maxRounds : Nat} {id : LabelId}
  {label : Label} {aboard : Aboard}

theorem Grows.refl : s.Grows s := ⟨fun h => h, rfl, rfl⟩

theorem Grows.trans (h : s.Grows s') (h' : s'.Grows s'') : s.Grows s'' where
  kept hlabel := h'.kept (h.kept hlabel)
  round_eq := h'.round_eq.trans h.round_eq
  iteration_eq := h'.iteration_eq.trans h.iteration_eq

/-- Trips on board stay boarded after labels of the round before. -/
theorem BoardedAfter.grows (h : s.BoardedAfter aboard) (hgrows : s.Grows s') :
    s'.BoardedAfter aboard := by
  intro e he
  obtain ⟨before, hbefore, hround, hiteration, hstop⟩ := h e he
  exact ⟨before, hgrows.kept hbefore, hround.trans hgrows.round_eq.symm,
    hiteration.trans hgrows.iteration_eq.symm, hstop⟩

/-- A label stays linked as long as the labels before it are kept. -/
theorem Linked.mono (h : s.Linked course id label)
    (hkept : ∀ {id : LabelId} {l : Label}, s.arena[id]? = some l → s'.arena[id]? = some l) :
    s'.Linked course id label := by
  cases h with
  | access horigin hleg => exact .access horigin hleg
  | ride horigin hearlier hbefore hiteration hround hstop =>
    exact .ride horigin hearlier (hkept hbefore) hiteration hround hstop
  | walk horigin hearlier hbefore hiteration hround honBoard hstop hleaves =>
    exact .walk horigin hearlier (hkept hbefore) hiteration hround honBoard hstop hleaves

/-- The label that a linked label comes from is an earlier one. -/
theorem Linked.previous_lt (h : s.Linked course id label) {previous : LabelId}
    (hprevious : label.origin.previous? = some previous) : previous < id := by
  cases h with
  | access horigin =>
    rw [horigin] at hprevious
    cases hprevious
  | ride horigin hearlier | walk horigin hearlier =>
    rw [horigin] at hprevious
    obtain rfl := Option.some.inj hprevious
    exact hearlier

namespace Coherent

/-- What labels have in common is about the tables only. -/
theorem congr (h : s.Coherent course) (harena : s'.arena = s.arena) (hfronts : s'.fronts = s.fronts)
    (hfinishes : s'.finishes = s.finishes) : s'.Coherent course := by
  have hfront : ∀ round stop, s'.frontAt round stop = s.frontAt round stop := fun round stop => by
    rw [frontAt, frontAt, hfronts]
  constructor
  case linked =>
    intro id label hlabel
    rw [harena] at hlabel
    exact (h.linked hlabel).mono fun hl => by rwa [harena]
  case entry =>
    intro round stop e he
    rw [hfront] at he
    rw [harena]
    exact h.entry he
  case clean =>
    intro round stop
    rw [hfront]
    exact h.clean round stop
  case later =>
    intro round round' stop e e' he he'
    rw [hfront] at he he'
    exact h.later he he'
  case finish =>
    rw [harena, hfinishes]
    exact h.finish
  case best =>
    rw [hfinishes]
    exact h.best

theorem new : (Labels.new stopCount maxRounds).Coherent course where
  linked := by simp [Labels.new]
  entry he := by
    rw [frontAt_new] at he
    cases he
  clean round stop := by
    rw [frontAt_new]
    exact Front.clean_empty
  later he := by
    rw [frontAt_new] at he
    cases he
  finish := by simp [Labels.new]
  best := Front.clean_empty

/-- A label is only added if no label of its round or an earlier one is at least as good. -/
theorem register (h : s.Coherent course) (hs : s.Sound course.direction stopCount maxRounds)
    (hnext : s.IsNext label) (hstop : label.stop < stopCount)
    (hlinked : s.Linked course s.arena.size label)
    (hcovered : ¬s.CoveredBy course.direction s.round label.stop label.criteria) :
    (s.register course.direction label).Coherent course := by
  have hregistered := hs.register hnext hstop hcovered
  constructor
  case linked =>
    intro id l hl
    rcases register_cases hl with hl | ⟨rfl, rfl⟩
    · exact (h.linked hl).mono register_kept
    · exact hlinked.mono register_kept
  case entry => exact hregistered.entry
  case clean => exact hregistered.clean
  case later =>
    intro round round' stop e e' he he' hround hlt
    rcases hs.register_entries_cases hstop he with he | ⟨rfl, -, -⟩
    · rcases hs.register_entries_cases hstop he' with he' | ⟨rfl, rfl, rfl⟩
      · exact h.later he he' hround hlt
      · -- the label was not added if `e` was at least as good
        rw [Bool.eq_false_iff]
        exact fun hdom => hcovered ⟨round, hround, Front.covers_of_mem he hdom⟩
    · rcases hs.register_entries_cases hstop he' with he' | ⟨rfl, -, -⟩
      · -- no label is later than the one that is added
        obtain ⟨l, hl, -⟩ := h.entry he'
        exact absurd (hlt.trans (Array.getElem?_eq_some_iff.mp hl).1) (Nat.lt_irrefl _)
      · exact absurd hlt (Nat.lt_irrefl _)
  case finish =>
    intro e he
    obtain ⟨l, hl, hleg⟩ := h.finish he
    exact ⟨l, register_kept hl, hleg⟩
  case best => exact h.best

/-- Finishes that follow labels may take the place of those found before. -/
theorem withFinishes (h : s.Coherent course) {finishes : Front Finish JourneyCriteria}
    (hfinishes : ∀ e ∈ finishes.entries, e ∈ s.finishes.entries ∨
      ∃ label, s.arena[e.1.label]? = some label ∧ label.stop = e.1.leg.stop)
    (hbest : finishes.Clean course.direction.dominatesJourney) :
    ({ s with finishes } : Labels).Coherent course where
  linked hlabel := (h.linked hlabel).mono fun hl => hl
  entry := h.entry
  clean := h.clean
  later := h.later
  finish he := (hfinishes _ he).elim h.finish id
  best := hbest

end Coherent

end Labels

namespace LabelScene

variable {c : LabelScene} {course : Course} {s s' : Labels} {round : Nat} {id : LabelId}
  {label : Label} {stop : StopId} {position : Nat} {aboard aboard' : Aboard}

/-- The state of a search in a round. -/
structure InOrder (c : LabelScene) (course : Course) (round : Nat) (s : Labels) : Prop where
  sound : s.Sound course.direction c.stopCount course.maxRounds
  coherent : s.Coherent course
  round_eq : s.round = round

/-! ### Arriving -/

/-- An arrival that is linked keeps a state in order. -/
theorem InOrder.arrive (h : c.InOrder course round s) (hd : course.direction = c.direction)
    {time : Time} {cost : Cost} {origin : Origin}
    (hlinked : s.Linked course s.arena.size ⟨stop, s.round, s.iteration, time, cost, origin⟩)
    (harrive : c.arrive stop time cost origin s = .ok s') :
    c.InOrder course round s' ∧ s.Grows s' := by
  have hsound := h.sound
  rw [hd] at hsound
  have hnext : s.IsNext ⟨stop, s.round, s.iteration, time, cost, origin⟩ :=
    ⟨rfl, rfl, fun _ => hlinked.previous_lt⟩
  cases (hsound.yields_arrive hnext).of_ok harrive with
  | outside | covered | hopeless => exact ⟨h, .refl⟩
  | registered hstop hcovered =>
    rw [← hd] at hcovered ⊢
    exact ⟨⟨h.sound.register hnext hstop hcovered,
      h.coherent.register h.sound hnext hstop hlinked hcovered, h.round_eq⟩,
      Labels.register_kept, rfl, rfl⟩

theorem InOrder.seed (h : c.InOrder course round s) (hd : course.direction = c.direction)
    {leg : Connector} {start : Time} (hleg : leg ∈ course.access)
    (hseed : c.seed leg start s = .ok s') : c.InOrder course round s' := by
  obtain ⟨time, -, harrive⟩ := bind_eq_ok.mp hseed
  exact (h.arrive hd (.access rfl hleg) harrive).1

/-- A search that leaves a trip arrives where it is left, by a ride after the label before. -/
theorem exists_arrive_of_alightTrip {e : Boarded} {position : Nat}
    (h : c.alightTrip stop position s e = .ok s') :
    ∃ time cost ride, ride.boardStop = e.stop ∧
      c.arrive stop time cost (.ride ride e.previous) s = .ok s' := by
  obtain ⟨alightTime, -, h⟩ := bind_eq_ok.mp h
  obtain ⟨time, -, h⟩ := bind_eq_ok.mp h
  obtain ⟨span, -, h⟩ := bind_eq_ok.mp h
  obtain ⟨cost, -, harrive⟩ := bind_eq_ok.mp h
  exact ⟨time, cost, _, rfl, harrive⟩

/-- The labels at the end of rides are linked to those after which the trips were boarded. -/
theorem InOrder.alight (h : c.InOrder course round s) (hd : course.direction = c.direction)
    (haboard : s.BoardedAfter aboard) (halight : c.alight aboard stop position s = .ok s') :
    c.InOrder course round s' ∧ s.Grows s' := by
  refine foldlM_keeps (I := fun s₁ => c.InOrder course round s₁ ∧ s.Grows s₁) ⟨h, .refl⟩ ?_ halight
  rintro s₁ boarded hboarded ⟨h₁, hgrows⟩ s₂ halightTrip
  obtain ⟨⟨_, k⟩, he, rfl⟩ := List.mem_map.mp hboarded
  obtain ⟨before, hbefore, hround, hiteration, hstop⟩ := haboard.grows hgrows _ he
  obtain ⟨time, cost, ride, hboardStop, harrive⟩ := exists_arrive_of_alightTrip halightTrip
  have hearlier := (Array.getElem?_eq_some_iff.mp hbefore).1
  obtain ⟨h₂, hgrows₂⟩ :=
    h₁.arrive hd (.ride rfl hearlier hbefore hiteration hround (hstop.trans hboardStop.symm))
      harrive
  exact ⟨h₂, hgrows.trans hgrows₂⟩

/-! ### The labels of a round at a stop -/

theorem front_eq_ok {front : Front LabelId StopCriteria} (h : s.front round stop = .ok front) :
    front = s.frontAt round stop := by
  obtain ⟨stops, hstops, h⟩ := bind_eq_ok.mp h
  simp only [Labels.frontAt, Array.getD_eq_getD_getElem?, fetch_eq_ok.mp hstops, Option.getD_some,
    fetch_eq_ok.mp h]

/-- The current labels at a stop belong to the round and the iteration. -/
theorem mem_of_current (hs : s.Coherent course) {arrivals : List (LabelId × Label)}
    (h : s.current round stop = .ok arrivals) (hmem : (id, label) ∈ arrivals) :
    s.arena[id]? = some label ∧ label.stop = stop ∧ label.round = round ∧
      label.iteration = s.iteration := by
  obtain ⟨front, hfront, h⟩ := bind_eq_ok.mp h
  obtain ⟨labels, hlabels, h⟩ := bind_eq_ok.mp h
  cases h
  obtain ⟨hmem, hiteration⟩ := List.mem_filter.mp hmem
  obtain ⟨id', hid, hlabel⟩ := exists_of_mem_mapM hlabels hmem
  obtain ⟨found, hfound, hlabel⟩ := bind_eq_ok.mp hlabel
  cases hlabel
  rw [front_eq_ok hfront] at hid
  obtain ⟨e, he, rfl⟩ := List.mem_map.mp hid
  obtain ⟨l, hl, hstop, hround, -⟩ := hs.entry he
  obtain rfl := Option.some.inj (hl.symm.trans (fetch_eq_ok.mp hfound))
  exact ⟨hl, hstop, hround, by simpa using hiteration⟩

/-! ### Boarding -/

/-- Nothing is on board before a pattern is ridden. -/
theorem enter_eq_ok {p : Pattern} {t : Timetable} (h : c.enter p t = .ok aboard) :
    ∃ rules, aboard = ⟨t, rules, .empty⟩ := by
  unfold enter at h
  cases hrules : c.rules with
  | none =>
    rw [hrules] at h
    cases h
    exact ⟨none, rfl⟩
  | some index =>
    rw [hrules] at h
    obtain ⟨rules, -, h⟩ := bind_eq_ok.mp h
    cases h
    exact ⟨rules, rfl⟩

/-- A trip is boarded after the label in hand. -/
theorem mem_of_boardTrip {ranked : Nat × Trip} {constraint : Constraint} {rideEnd : Option Time}
    (h : c.boardTrip id label stop position ranked constraint rideEnd aboard = .ok aboard')
    {e : Boarded × AboardCriteria} (he : e ∈ aboard'.front.entries) :
    e ∈ aboard.front.entries ∨ (e.1.previous = id ∧ e.1.stop = stop) := by
  obtain ⟨rank, trip⟩ := ranked
  obtain ⟨time, -, h⟩ := bind_eq_ok.mp h
  obtain ⟨since, -, h⟩ := bind_eq_ok.mp h
  obtain ⟨boarding, -, h⟩ := bind_eq_ok.mp h
  obtain ⟨cost, -, h⟩ := bind_eq_ok.mp h
  obtain ⟨clock, -, h⟩ := bind_eq_ok.mp h
  obtain ⟨ridden, -, h⟩ := bind_eq_ok.mp h
  obtain ⟨relative, -, h⟩ := bind_eq_ok.mp h
  cases h
  exact (Front.mem_add he).imp_right fun heq => by rw [heq]; exact ⟨rfl, rfl⟩

/-- A boarding under the rules puts at most one trip on board, after the given label. -/
theorem mem_of_boardByRule
    (h : c.boardByRule s id label stop position aboard = .ok (some aboard'))
    {e : Boarded × AboardCriteria} (he : e ∈ aboard'.front.entries) :
    e ∈ aboard.front.entries ∨ (e.1.previous = id ∧ e.1.stop = stop) := by
  unfold boardByRule at h
  split at h
  · cases h
  · split at h
    · cases h
    obtain ⟨last, -, h⟩ := bind_eq_ok.mp h
    cases last with
    | none => cases h
    | some last =>
      obtain ⟨earliest, -, h⟩ := bind_eq_ok.mp h
      obtain ⟨found, -, h⟩ := bind_eq_ok.mp h
      cases found with
      | none => cases h
      | some found =>
        dsimp only at h
        split at h
        · cases h
          exact .inl he
        · obtain ⟨boarded, hboarded, h⟩ := bind_eq_ok.mp h
          cases h
          exact mem_of_boardTrip hboarded he

/-- A regular boarding puts at most one trip on board, after the given label. -/
theorem mem_of_boardRegular (h : c.boardRegular id label stop position aboard = .ok aboard')
    {e : Boarded × AboardCriteria} (he : e ∈ aboard'.front.entries) :
    e ∈ aboard.front.entries ∨ (e.1.previous = id ∧ e.1.stop = stop) := by
  obtain ⟨earliest, -, h⟩ := bind_eq_ok.mp h
  obtain ⟨best, -, h⟩ := bind_eq_ok.mp h
  cases best with
  | none =>
    cases h
    exact .inl he
  | some ranked => exact mem_of_boardTrip h he

/-- Whatever is boarded after a label, the trips on board remain boarded after labels of the round
before. -/
theorem boardedAfter_board (haboard : s.BoardedAfter aboard)
    (hlabel : s.arena[id]? = some label) (hstop : label.stop = stop)
    (hround : label.round + 1 = s.round) (hiteration : label.iteration = s.iteration)
    (h : c.board s id stop position aboard = .ok aboard') : s.BoardedAfter aboard' := by
  obtain ⟨found, hfound, h⟩ := bind_eq_ok.mp h
  obtain ⟨result, hresult, h⟩ := bind_eq_ok.mp h
  intro e he
  have hcases : e ∈ aboard.front.entries ∨ (e.1.previous = id ∧ e.1.stop = stop) := by
    cases result with
    | none => exact mem_of_boardRegular h he
    | some boarded =>
      cases h
      exact mem_of_boardByRule hresult he
  rcases hcases with he | ⟨rfl, heq⟩
  · exact haboard e he
  · exact ⟨label, hlabel, hround, hiteration, hstop.trans heq.symm⟩

/-! ### Walking -/

/-- The labels at the end of walks are linked to those on board at their start. -/
theorem InOrder.walk (h : c.InOrder course round s) (hd : course.direction = c.direction)
    {walks : List Walk} (hwalk : c.walk stop walks s = .ok s') : c.InOrder course round s' := by
  obtain ⟨arrivals, harrivals, hwalk⟩ := bind_eq_ok.mp hwalk
  refine (foldlM_keeps (I := fun s₁ => c.InOrder course round s₁ ∧ s.Grows s₁) ⟨h, .refl⟩ ?_
    hwalk).1
  rintro s₁ ⟨id, label⟩ harrival hs₁ s₂ hwalkFrom
  obtain ⟨hmem, honBoard⟩ := List.mem_filter.mp harrival
  obtain ⟨hlabel, hstop, hround, hiteration⟩ := mem_of_current h.coherent harrivals hmem
  refine foldlM_keeps (I := fun s₁ => c.InOrder course round s₁ ∧ s.Grows s₁) hs₁ ?_ hwalkFrom
  rintro s₃ w - ⟨h₃, hgrows⟩ s₄ hstep
  dsimp only at hstep
  split at hstep
  case isTrue =>
    cases hstep
    exact ⟨h₃, hgrows⟩
  case isFalse hleaves =>
    obtain ⟨time, -, hstep⟩ := bind_eq_ok.mp hstep
    obtain ⟨price, -, hstep⟩ := bind_eq_ok.mp hstep
    obtain ⟨cost, -, harrive⟩ := bind_eq_ok.mp hstep
    have hbefore := hgrows.kept hlabel
    have hearlier := (Array.getElem?_eq_some_iff.mp hbefore).1
    obtain ⟨h₄, hgrows₄⟩ := h₃.arrive hd (.walk rfl hearlier hbefore
      (hiteration.trans hgrows.iteration_eq.symm) (hround.trans hgrows.round_eq.symm) honBoard hstop
      (Ne.symm hleaves)) harrive
    exact ⟨h₄, hgrows.trans hgrows₄⟩

/-! ### Finishing -/

/-- Finishes after labels of the round follow labels. -/
theorem InOrder.gained (h : c.InOrder course round s) (hd : course.direction = c.direction)
    {finishes : Front Finish JourneyCriteria}
    {gains : Finish × JourneyCriteria → Prop}
    (hgained : Front.Gained c.direction.dominatesJourney gains s.finishes finishes)
    (hgains : ∀ e, gains e → c.FinishesWith s e) :
    c.InOrder course round ({ s with finishes } : Labels) := by
  have hbest := h.coherent.best
  rw [hd] at hbest
  have hclean := hgained.clean hbest
  rw [← hd] at hclean
  refine ⟨h.sound.withFinishes finishes, h.coherent.withFinishes (fun e he => ?_) hclean,
    h.round_eq⟩
  refine (hgained.entry he).imp_right fun he => ?_
  obtain ⟨stop, label, hholds, hstop, -, -, -, hleg, -⟩ := hgains e he
  exact ⟨label, hholds.1, hstop.trans hleg.symm⟩

theorem InOrder.finish (h : c.InOrder course round s) (hd : course.direction = c.direction)
    (hfinish : c.finish s = .ok s') : c.InOrder course round s' := by
  have hsound := h.sound
  rw [hd] at hsound
  obtain ⟨finishes, rfl, hgained⟩ := (yields_finish hsound).of_ok hfinish
  exact h.gained hd hgained fun _ he => he

/-- An iteration starts with round zero. -/
theorem InOrder.start (h : c.InOrder course round s) (time : Time) :
    c.InOrder course 0 (Labels.start time s) :=
  ⟨h.sound.start time, h.coherent.congr rfl rfl rfl, rfl⟩

/-- A round begins with the labels and the fronts of the one before. -/
theorem InOrder.advance (h : c.InOrder course round s) (hd : course.direction = c.direction)
    (hround : round < course.maxRounds) {turned : Bool × Labels}
    (hadvance : c.advance (round + 1) s = .ok turned) :
    c.InOrder course (round + 1) turned.2 := by
  have hsound := h.sound
  rw [hd] at hsound
  obtain ⟨begun, rfl, hgained⟩ :=
    (yields_advance hsound (congrArg (· + 1) h.round_eq)).of_ok hadvance
  obtain ⟨hbegun, hcoherent, rfl⟩ := h.gained hd hgained fun _ he => he.2
  exact ⟨hbegun.turn hround, hcoherent.congr rfl rfl rfl, rfl⟩

/-! ### Runs -/

/-- All operations of a search keep its labels in order. -/
theorem keeps_inOrder (hd : course.direction = c.direction) :
    (labelScheme c).Keeps course (c.InOrder course) Labels.BoardedAfter where
  start time h := h.start time
  seed hleg h hseed := h.seed hd (List.mem_of_mem_filter hleg) hseed
  seedOnBoard hleg h hseed := h.seed hd (List.mem_of_mem_filter hleg) hseed
  advance hround h hadvance := h.advance hd hround hadvance
  enter henter := by
    obtain ⟨rules, rfl⟩ := enter_eq_ok henter
    rintro e ⟨⟩
  alight h haboard halight := by
    obtain ⟨h', hgrows⟩ := h.alight hd haboard halight
    exact ⟨h', haboard.grows hgrows⟩
  board := by
    intro round s aboard stop position arrivals id aboard' h haboard harrivals hmem hboard
    obtain ⟨current, hcurrent, harrivals⟩ := bind_eq_ok.mp harrivals
    cases harrivals
    obtain ⟨⟨_, label⟩, hfound, rfl⟩ := List.mem_map.mp hmem
    obtain ⟨hlabel, hstop, hround, hiteration⟩ := mem_of_current h.coherent hcurrent hfound
    have hbefore : label.round + 1 = s.round := by
      rw [hround, h.round_eq]
      rfl
    exact boardedAfter_board haboard hlabel hstop hbefore hiteration hboard
  walk h hwalk := h.walk hd hwalk
  finish h hfinish := h.finish hd hfinish

end LabelScene

end JourneyPlanner
