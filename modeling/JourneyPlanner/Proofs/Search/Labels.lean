import JourneyPlanner.Proofs.Search.Marks
import JourneyPlanner.Proofs.Search.Dominance

/-!
# The labels of a search

What the tables of a search for labels have in common at any time, and that one more label, a new
iteration and a new round keep it.

* `Labels.Holds`: a label is among the best ones of its round at its stop.
* `Labels.Sound`: the fronts hold labels of the arena, and the stops where labels of the current
  iteration arrived are marked.
* `Labels.CoveredBy`: an arrival is no better than a label of some round and those before it.
* `Labels.Sound.register`, `Labels.Sound.start`, `Labels.Sound.turn`: the tables stay in order.
-/

namespace JourneyPlanner

def Label.criteria (label : Label) : StopCriteria := ⟨label.time, label.cost, label.onBoard⟩

namespace Labels

/-- The best labels of a round at a stop, none outside the tables. -/
def frontAt (s : Labels) (round : Nat) (stop : StopId) : Front LabelId StopCriteria :=
  (s.fronts.getD round #[]).getD stop .empty

/-- A label is among the best ones of its round at its stop. -/
def Holds (s : Labels) (id : LabelId) (label : Label) : Prop :=
  s.arena[id]? = some label ∧ (id, label.criteria) ∈ (s.frontAt label.round label.stop).entries

/-- An arrival is no better than a label of some round or an earlier one. -/
def CoveredBy (s : Labels) (d : Direction) (round : Nat) (stop : StopId)
    (criteria : StopCriteria) : Prop :=
  ∃ r ≤ round, (s.frontAt r stop).covers d.dominatesAtStop criteria = true

/-- The tables have one entry for every round and stop, the fronts hold labels of the arena, and
the marks tell where labels of the current iteration have arrived. -/
structure Sound (s : Labels) (d : Direction) (stopCount maxRounds : Nat) : Prop where
  fronts_size : s.fronts.size = maxRounds + 1
  stops_size : ∀ {round : Nat} {stops : Array (Front LabelId StopCriteria)},
    s.fronts[round]? = some stops → stops.size = stopCount
  touched_size : s.touched.marks.size = stopCount
  reached_size : s.reached.marks.size = stopCount
  ridden_size : s.ridden.marks.size = stopCount
  round_le : s.round ≤ maxRounds
  entry : ∀ {round stop : Nat} {e : LabelId × StopCriteria}, e ∈ (s.frontAt round stop).entries →
    ∃ label, s.arena[e.1]? = some label ∧ label.stop = stop ∧ label.round = round ∧
      label.criteria = e.2
  clean : ∀ round stop, (s.frontAt round stop).Clean d.dominatesAtStop
  stop_lt : ∀ {id : LabelId} {label : Label}, s.arena[id]? = some label → label.stop < stopCount
  previous_lt : ∀ {id previous : LabelId} {label : Label}, s.arena[id]? = some label →
    label.origin.previous? = some previous → previous < id
  label_round_le : ∀ {id : LabelId} {label : Label}, s.arena[id]? = some label →
    label.round ≤ maxRounds
  iteration_le : ∀ {id : LabelId} {label : Label}, s.arena[id]? = some label →
    label.iteration ≤ s.iteration
  round_of_current : ∀ {id : LabelId} {label : Label}, s.arena[id]? = some label →
    label.iteration = s.iteration → label.round ≤ s.round
  touched_of_current : ∀ {id : LabelId} {label : Label}, s.arena[id]? = some label →
    label.iteration = s.iteration → label.round = s.round → s.touched.contains label.stop = true
  ridden_of_current : ∀ {id : LabelId} {label : Label}, s.arena[id]? = some label →
    label.iteration = s.iteration → label.round = s.round → label.onBoard = true →
    s.ridden.contains label.stop = true
  reached_of_previous : ∀ {id : LabelId} {label : Label}, s.arena[id]? = some label →
    label.iteration = s.iteration → label.round + 1 = s.round →
    s.reached.contains label.stop = true

theorem frontAt_new {stopCount maxRounds round : Nat} {stop : StopId} :
    (new stopCount maxRounds).frontAt round stop = .empty := by
  simp only [frontAt, new, Array.getD_eq_getD_getElem?, Array.getElem?_replicate]
  split
  · simp only [Option.getD_some, Array.getElem?_replicate]
    split <;> rfl
  · rfl

variable {s : Labels} {d : Direction} {stopCount maxRounds round stop : Nat} {id : LabelId}
  {label : Label} {k : StopCriteria}

/-- A label that a front holds covers what it is at least as good as. -/
theorem Holds.covers (h : s.Holds id label) (hround : label.round ≤ round)
    (hk : d.dominatesAtStop label.criteria k = true) : s.CoveredBy d round label.stop k :=
  ⟨label.round, hround, Front.covers_of_mem h.2 hk⟩

/-! ### Reading the tables -/

/-- What covers an arrival is a label that a front holds. -/
theorem Sound.exists_of_coveredBy (hs : s.Sound d stopCount maxRounds)
    (h : s.CoveredBy d round stop k) :
    ∃ id label, s.Holds id label ∧ label.stop = stop ∧ label.round ≤ round ∧
      d.dominatesAtStop label.criteria k = true := by
  obtain ⟨r, hr, hcovers⟩ := h
  obtain ⟨e, he, hek⟩ := Front.covers_iff.mp hcovers
  obtain ⟨label, hlabel, rfl, rfl, hcriteria⟩ := hs.entry he
  refine ⟨e.1, label, ⟨hlabel, ?_⟩, rfl, hr, by rwa [hcriteria]⟩
  rwa [hcriteria]

/-- Of two labels that a front holds, one is at least as good as the other only if they are the
same. -/
theorem Sound.eq_of_dominates (hs : s.Sound d stopCount maxRounds) {id' : LabelId} {label' : Label}
    (h : s.Holds id label) (h' : s.Holds id' label') (hround : label.round = label'.round)
    (hstop : label.stop = label'.stop)
    (hdom : d.dominatesAtStop label.criteria label'.criteria = true) :
    id = id' ∧ label = label' := by
  have hmem := h.2
  rw [hround, hstop] at hmem
  obtain ⟨rfl, -⟩ := Prod.mk.inj ((hs.clean _ _).eq_of_dom hmem h'.2 hdom)
  exact ⟨rfl, Option.some.inj (h.1.symm.trans h'.1)⟩

theorem yields_label (hid : id < s.arena.size) :
    Yields (s.label id) fun label => s.arena[id]? = some label :=
  yields_fetch hid

/-- The front of a round and a stop can be read. -/
theorem Sound.front_eq (hs : s.Sound d stopCount maxRounds) (hround : round ≤ maxRounds)
    (hstop : stop < stopCount) : s.front round stop = .ok (s.frontAt round stop) := by
  have hlt : round < s.fronts.size := by rw [hs.fronts_size]; omega
  have hround := Array.getElem?_eq_getElem hlt
  have hlt' : stop < s.fronts[round].size := by rw [hs.stops_size hround]; exact hstop
  rw [front, fetch_of_getElem? hround]
  show fetch s.fronts[round] stop = _
  rw [fetch_of_getElem? (Array.getElem?_eq_getElem hlt')]
  simp [frontAt, hlt, hlt']

/-- The labels of a round and the current iteration at a stop are those that its front holds. -/
theorem Sound.yields_current (hs : s.Sound d stopCount maxRounds) (hround : round ≤ maxRounds)
    (hstop : stop < stopCount) :
    Yields (s.current round stop) fun arrivals => ∀ id label, (id, label) ∈ arrivals ↔
      s.Holds id label ∧ label.round = round ∧ label.stop = stop ∧
        label.iteration = s.iteration := by
  rw [current, hs.front_eq hround hstop]
  show Yields (do
    let labels ← (s.frontAt round stop).elements.mapM fun id => do return (id, ← s.label id)
    return labels.filter fun arrival => arrival.2.iteration == s.iteration) _
  have hmap := Yields.mapM_mem
    (f := fun id => do return (id, ← s.label id))
    (R := fun id arrival => arrival.1 = id ∧ s.arena[id]? = some arrival.2)
    fun id (hid : id ∈ (s.frontAt round stop).elements) => by
      obtain ⟨e, he, rfl⟩ := List.mem_map.mp hid
      obtain ⟨label, hlabel, -⟩ := hs.entry he
      exact (yields_label (Array.getElem?_eq_some_iff.mp hlabel).1).bind
        fun found _ hfound => ⟨rfl, hfound⟩
  refine hmap.bind fun labels _ ⟨hcomplete, hsound⟩ => ?_
  intro id label
  simp only [List.mem_filter, beq_iff_eq]
  constructor
  · rintro ⟨hmem, hiteration⟩
    obtain ⟨_, hid, rfl, hlabel⟩ := hsound _ hmem
    obtain ⟨e, he, rfl⟩ := List.mem_map.mp hid
    obtain ⟨found, hfound, rfl, rfl, hcriteria⟩ := hs.entry he
    obtain rfl : found = label := Option.some.inj (hfound.symm.trans hlabel)
    exact ⟨⟨hlabel, by rwa [hcriteria]⟩, rfl, rfl, hiteration⟩
  · rintro ⟨⟨hlabel, hentry⟩, rfl, rfl, hiteration⟩
    obtain ⟨⟨_, found⟩, hmem, rfl, hfound⟩ := hcomplete id (List.mem_map.mpr ⟨_, hentry, rfl⟩)
    obtain rfl : label = found := Option.some.inj (hlabel.symm.trans hfound)
    exact ⟨hmem, hiteration⟩

/-! ### One more label -/

/-- A label belongs to the current round and iteration and comes from a label of the arena. -/
structure IsNext (s : Labels) (label : Label) : Prop where
  round : label.round = s.round
  iteration : label.iteration = s.iteration
  previous : ∀ previous, label.origin.previous? = some previous → previous < s.arena.size

/-- One more label changes the front of its own round and stop only. -/
theorem Sound.frontAt_register (hs : s.Sound d stopCount maxRounds)
    (hstop : label.stop < stopCount) (round : Nat) (stop : StopId) :
    (s.register d label).frontAt round stop =
      if round = s.round ∧ stop = label.stop then
        (s.frontAt round stop).replace d.dominatesAtStop s.arena.size label.criteria
      else s.frontAt round stop := by
  have hlt : s.round < s.fronts.size := by
    have := hs.round_le
    rw [hs.fronts_size]
    omega
  have hlt' : label.stop < s.fronts[s.round].size := by
    rw [hs.stops_size (Array.getElem?_eq_getElem hlt)]
    exact hstop
  simp only [frontAt, register, Array.getD_eq_getD_getElem?, Array.getElem?_modify]
  by_cases hround : s.round = round
  · subst hround
    simp only [if_true, Array.getElem?_eq_getElem hlt, Option.map_some, Option.getD_some,
      Array.getElem?_modify, true_and]
    by_cases hstop' : label.stop = stop
    · subst hstop'
      simp [Array.getElem?_eq_getElem hlt', Label.criteria]
    · simp [hstop', Ne.symm hstop']
  · simp [hround, Ne.symm hround]

/-- One more label is put behind those of the arena. -/
theorem getElem?_register :
    (s.register d label).arena[id]? = if id = s.arena.size then some label else s.arena[id]? := by
  simp [register, Array.getElem?_push]

theorem register_kept {l : Label} (h : s.arena[id]? = some l) :
    (s.register d label).arena[id]? = some l := by
  have := (Array.getElem?_eq_some_iff.mp h).1
  rw [getElem?_register, if_neg this.ne, h]

/-- A label of the arena is an earlier one, or the one that was registered last. -/
theorem register_cases {l : Label} (h : (s.register d label).arena[id]? = some l) :
    s.arena[id]? = some l ∨ id = s.arena.size ∧ l = label := by
  rw [getElem?_register] at h
  split at h
  case isTrue hid => exact .inr ⟨hid, (Option.some.inj h).symm⟩
  case isFalse => exact .inl h

/-- An entry of a front is an earlier one, or the one of the label that was registered last. -/
theorem Sound.register_entries_cases (hs : s.Sound d stopCount maxRounds)
    (hstop : label.stop < stopCount) {e : LabelId × StopCriteria}
    (h : e ∈ ((s.register d label).frontAt round stop).entries) :
    e ∈ (s.frontAt round stop).entries ∨
      e = (s.arena.size, label.criteria) ∧ round = s.round ∧ stop = label.stop := by
  rw [hs.frontAt_register hstop] at h
  split at h
  case isTrue hplace => exact (Front.mem_replace.mp h).imp And.left fun heq => ⟨heq, hplace⟩
  case isFalse => exact .inl h

theorem Sound.touched_register (hs : s.Sound d stopCount maxRounds)
    (hstop : label.stop < stopCount) (h : s.touched.contains stop = true ∨ stop = label.stop) :
    (s.register d label).touched.contains stop = true := by
  rcases h with h | rfl
  · exact IndexSet.contains_insert_of_contains h
  · exact IndexSet.contains_insert.mpr (.inl ⟨rfl, by rw [hs.touched_size]; exact hstop⟩)

/-- A stop is ridden to once a label on board has been registered there. -/
theorem Sound.ridden_register (hs : s.Sound d stopCount maxRounds)
    (hstop : label.stop < stopCount)
    (h : s.ridden.contains stop = true ∨ stop = label.stop ∧ label.onBoard = true) :
    (s.register d label).ridden.contains stop = true := by
  simp only [Labels.register]
  rcases h with h | ⟨rfl, honBoard⟩
  · split
    · exact IndexSet.contains_insert_of_contains h
    · exact h
  · rw [if_pos honBoard]
    exact IndexSet.contains_insert.mpr (.inl ⟨rfl, by rw [hs.ridden_size]; exact hstop⟩)

/-- The labels that are held after one more are this one and those it is not at least as good as. -/
theorem Sound.holds_register (hs : s.Sound d stopCount maxRounds) (hnext : s.IsNext label)
    (hstop : label.stop < stopCount) {l : Label} :
    (s.register d label).Holds id l ↔
      (id = s.arena.size ∧ l = label) ∨
      (s.Holds id l ∧ (l.round = s.round → l.stop = label.stop →
        d.dominatesAtStop label.criteria l.criteria = false)) := by
  rw [Holds, hs.frontAt_register hstop, getElem?_register]
  constructor
  · rintro ⟨harena, hentry⟩
    split at harena
    case isTrue hid => exact .inl ⟨hid, (Option.some.inj harena).symm⟩
    case isFalse hid =>
      split at hentry
      case isTrue hplace =>
        rcases Front.mem_replace.mp hentry with ⟨hentry, hdom⟩ | heq
        · exact .inr ⟨⟨harena, hentry⟩, fun _ _ => hdom⟩
        · exact absurd (Prod.mk.inj heq).1 hid
      case isFalse hplace => exact .inr ⟨⟨harena, hentry⟩, fun h h' => absurd ⟨h, h'⟩ hplace⟩
  · rintro (⟨rfl, rfl⟩ | ⟨⟨harena, hentry⟩, hdom⟩)
    · refine ⟨if_pos rfl, ?_⟩
      rw [if_pos ⟨hnext.round, rfl⟩]
      exact Front.mem_replace.mpr (.inr rfl)
    · have := (Array.getElem?_eq_some_iff.mp harena).1
      refine ⟨by rw [if_neg this.ne, harena], ?_⟩
      split
      case isTrue hplace => exact Front.mem_replace.mpr (.inl ⟨hentry, hdom hplace.1 hplace.2⟩)
      case isFalse => exact hentry

/-- What was covered is covered after one more label. -/
theorem Sound.coveredBy_register (hs : s.Sound d stopCount maxRounds)
    (hstop : label.stop < stopCount) (h : s.CoveredBy d round stop k) :
    (s.register d label).CoveredBy d round stop k := by
  obtain ⟨r, hr, hcovers⟩ := h
  refine ⟨r, hr, ?_⟩
  rw [hs.frontAt_register hstop]
  split
  · exact Front.covers_replace d.dominatesAtStop_isOrder.toIsPreorder hcovers
  · exact hcovers

theorem Sound.coveredBy_register_self (hs : s.Sound d stopCount maxRounds)
    (hstop : label.stop < stopCount) :
    (s.register d label).CoveredBy d s.round label.stop label.criteria := by
  refine ⟨s.round, le_rfl, ?_⟩
  rw [hs.frontAt_register hstop, if_pos ⟨rfl, rfl⟩]
  exact Front.covers_replace_self d.dominatesAtStop_isOrder.toIsPreorder

/-- Registering a label that is not covered keeps the tables in order. -/
theorem Sound.register (hs : s.Sound d stopCount maxRounds) (hnext : s.IsNext label)
    (hstop : label.stop < stopCount)
    (hcovered : ¬s.CoveredBy d s.round label.stop label.criteria) :
    (s.register d label).Sound d stopCount maxRounds := by
  constructor
  case fronts_size => simpa [Labels.register] using hs.fronts_size
  case stops_size =>
    intro round stops hstops
    simp only [Labels.register, Array.getElem?_modify] at hstops
    split at hstops
    · obtain ⟨old, hold, rfl⟩ := Option.map_eq_some_iff.mp hstops
      simpa using hs.stops_size hold
    · exact hs.stops_size hstops
  case touched_size => simpa [Labels.register] using hs.touched_size
  case reached_size => exact hs.reached_size
  case ridden_size =>
    simp only [Labels.register]
    split
    · simpa using hs.ridden_size
    · exact hs.ridden_size
  case round_le => exact hs.round_le
  case entry =>
    intro round stop e he
    rcases hs.register_entries_cases hstop he with he | ⟨rfl, hround, hstop⟩
    · obtain ⟨l, hl, hrest⟩ := hs.entry he
      exact ⟨l, register_kept hl, hrest⟩
    · refine ⟨label, ?_, hstop.symm, hnext.round.trans hround.symm, rfl⟩
      rw [getElem?_register, if_pos rfl]
  case clean =>
    intro round stop
    rw [hs.frontAt_register hstop]
    split
    case isTrue hplace =>
      refine (hs.clean _ _).replace (Bool.eq_false_iff.mpr fun h => hcovered ?_)
      obtain ⟨rfl, rfl⟩ := hplace
      exact ⟨_, le_rfl, h⟩
    case isFalse => exact hs.clean _ _
  case stop_lt =>
    intro id l h
    rcases register_cases h with h | ⟨-, rfl⟩
    · exact hs.stop_lt h
    · exact hstop
  case previous_lt =>
    intro id previous l h hprevious
    rcases register_cases h with h | ⟨rfl, rfl⟩
    · exact hs.previous_lt h hprevious
    · exact hnext.previous _ hprevious
  case label_round_le =>
    intro id l h
    rcases register_cases h with h | ⟨-, rfl⟩
    · exact hs.label_round_le h
    · rw [hnext.round]
      exact hs.round_le
  case iteration_le =>
    intro id l h
    rcases register_cases h with h | ⟨-, rfl⟩
    · exact hs.iteration_le h
    · exact hnext.iteration.le
  case round_of_current =>
    intro id l h hiteration
    rcases register_cases h with h | ⟨-, rfl⟩
    · exact hs.round_of_current h hiteration
    · exact hnext.round.le
  case touched_of_current =>
    intro id l h hiteration hround
    rcases register_cases h with h | ⟨-, rfl⟩
    · exact hs.touched_register hstop (.inl (hs.touched_of_current h hiteration hround))
    · exact hs.touched_register hstop (.inr rfl)
  case ridden_of_current =>
    intro id l h hiteration hround honBoard
    rcases register_cases h with h | ⟨-, rfl⟩
    · exact hs.ridden_register hstop (.inl (hs.ridden_of_current h hiteration hround honBoard))
    · exact hs.ridden_register hstop (.inr ⟨rfl, honBoard⟩)
  case reached_of_previous =>
    intro id l h hiteration hround
    rcases register_cases h with h | ⟨-, rfl⟩
    · exact hs.reached_of_previous h hiteration hround
    · have := hnext.round
      have hround : l.round + 1 = s.round := hround
      omega

/-! ### Turning to an iteration and to a round -/

/-- Before any label all tables are empty and of the right size. -/
theorem new_sound : (new stopCount maxRounds).Sound d stopCount maxRounds where
  fronts_size := by simp [new]
  stops_size := by
    intro round stops h
    simp only [new, Array.getElem?_replicate] at h
    split at h
    · simp [← Option.some.inj h]
    · cases h
  touched_size := IndexSet.size_empty
  reached_size := IndexSet.size_empty
  ridden_size := IndexSet.size_empty
  round_le := Nat.zero_le _
  entry := by
    intro round stop e he
    rw [frontAt_new] at he
    cases he
  clean round stop := by
    rw [frontAt_new]
    exact Front.clean_empty
  stop_lt := by simp [new]
  previous_lt := by simp [new]
  label_round_le := by simp [new]
  iteration_le := by simp [new]
  round_of_current := by simp [new]
  touched_of_current := by simp [new]
  ridden_of_current := by simp [new]
  reached_of_previous := by simp [new]

/-- At the start of an iteration no label belongs to it. -/
theorem Sound.start (hs : s.Sound d stopCount maxRounds) (time : Time) :
    (Labels.start time s).Sound d stopCount maxRounds := by
  have hold : ∀ {id : LabelId} {label : Label}, s.arena[id]? = some label →
      label.iteration ≠ s.iteration + 1 := by
    intro id label h
    have := hs.iteration_le h
    omega
  exact {
    fronts_size := hs.fronts_size
    stops_size := hs.stops_size
    touched_size := by simpa [Labels.start] using hs.touched_size
    reached_size := by simpa [Labels.start] using hs.reached_size
    ridden_size := by simpa [Labels.start] using hs.ridden_size
    round_le := Nat.zero_le _
    entry := hs.entry
    clean := hs.clean
    stop_lt := hs.stop_lt
    previous_lt := hs.previous_lt
    label_round_le := hs.label_round_le
    iteration_le := fun h => (hs.iteration_le h).trans (Nat.le_succ _)
    round_of_current := fun h hiteration => absurd hiteration (hold h)
    touched_of_current := fun h hiteration => absurd hiteration (hold h)
    ridden_of_current := fun h hiteration => absurd hiteration (hold h)
    reached_of_previous := fun h hiteration => absurd hiteration (hold h) }

/-- The state at the beginning of the next round. -/
def turn (s : Labels) : Labels :=
  { s with
    round := s.round + 1
    reached := s.touched
    touched := s.touched.clear
    ridden := s.ridden.clear }

/-- At the beginning of a round no label belongs to it, and the stops of the round before are
those that have been reached. -/
theorem Sound.turn (hs : s.Sound d stopCount maxRounds) (hround : s.round + 1 ≤ maxRounds) :
    s.turn.Sound d stopCount maxRounds := by
  have hold : ∀ {id : LabelId} {label : Label}, s.arena[id]? = some label →
      label.iteration = s.iteration → label.round ≠ s.round + 1 := by
    intro id label h hiteration
    have := hs.round_of_current h hiteration
    omega
  exact {
    fronts_size := hs.fronts_size
    stops_size := hs.stops_size
    touched_size := by simpa [Labels.turn] using hs.touched_size
    reached_size := hs.touched_size
    ridden_size := by simpa [Labels.turn] using hs.ridden_size
    round_le := hround
    entry := hs.entry
    clean := hs.clean
    stop_lt := hs.stop_lt
    previous_lt := hs.previous_lt
    label_round_le := hs.label_round_le
    iteration_le := hs.iteration_le
    round_of_current := fun h hiteration => (hs.round_of_current h hiteration).trans (Nat.le_succ _)
    touched_of_current := fun h hiteration hlabel => absurd hlabel (hold h hiteration)
    ridden_of_current := fun h hiteration hlabel => absurd hlabel (hold h hiteration)
    reached_of_previous := fun h hiteration hlabel =>
      hs.touched_of_current h hiteration (Nat.succ_injective hlabel) }

theorem Sound.withFinishes (hs : s.Sound d stopCount maxRounds)
    (finishes : Front Finish JourneyCriteria) :
    ({ s with finishes } : Labels).Sound d stopCount maxRounds :=
  { hs with }

end Labels

end JourneyPlanner
