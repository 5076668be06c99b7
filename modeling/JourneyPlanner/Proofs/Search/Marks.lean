import JourneyPlanner.Search.Rounds
import JourneyPlanner.Proofs.Network.Built

/-!
# The marks of a round

Which patterns a round rides, and from where on.

* `ScanMarks.Records`: the marks are those of a list of visits: every pattern that is visited is
  in the queue once, with the visited position that the direction meets first.
* `ScanMarks.yields_markStops`: the marks of the stops that were reached are those of the visits of
  all patterns at these stops.
* `ScanMarks.clear_eq`: clearing leaves no mark behind.
-/

namespace JourneyPlanner

/-! ### Sets of indexes -/

namespace IndexSet

variable {s : IndexSet} {i j bound : Nat}

@[simp] theorem contains_empty : (empty bound).contains i = false := by
  simp only [contains, empty, Array.getD_eq_getD_getElem?, Array.getElem?_replicate]
  split <;> rfl

@[simp] theorem size_empty : (empty bound).marks.size = bound := by simp [empty]

@[simp] theorem size_insert : (s.insert i).marks.size = s.marks.size := by simp [insert]

@[simp] theorem contains_clear : s.clear.contains i = false := contains_empty

@[simp] theorem size_clear : s.clear.marks.size = s.marks.size := size_empty

/-- An insertion adds one member, unless it is beyond the bound. -/
theorem contains_insert :
    (s.insert i).contains j = true ↔ (i = j ∧ i < s.marks.size) ∨ s.contains j = true := by
  simp only [contains, insert, Array.getD_eq_getD_getElem?, Array.getElem?_setIfInBounds]
  by_cases hij : i = j
  · subst hij
    by_cases hlt : i < s.marks.size <;> simp [hlt]
  · simp [hij]

theorem contains_insert_of_contains (h : s.contains j = true) : (s.insert i).contains j = true :=
  contains_insert.mpr (.inr h)

theorem of_contains_insert_eq_false (hlt : i < s.marks.size)
    (h : (s.insert i).contains j = false) : j ≠ i ∧ s.contains j = false := by
  rw [Bool.eq_false_iff, Ne, contains_insert, not_or] at h
  refine ⟨fun heq => h.1 ⟨heq.symm, hlt⟩, ?_⟩
  rw [Bool.eq_false_iff]
  exact h.2

theorem lt_of_contains (h : s.contains i = true) : i < s.marks.size := by
  by_contra hge
  simp [contains, Array.getElem?_eq_none (Nat.le_of_not_lt hge)] at h

theorem isEmpty_iff : s.isEmpty = true ↔ ∀ i, s.contains i = false := by
  rw [isEmpty, List.isEmpty_iff, List.eq_nil_iff_forall_not_mem]
  simp [mem_toList]

end IndexSet

/-! ### Marks -/

namespace ScanMarks

/-- The marks of a list of visits, for a number of patterns. -/
structure Records (d : Direction) (count : Nat) (marks : ScanMarks)
    (visits : List (PatternId × Nat)) : Prop where
  size : marks.first.size = count
  nodup : marks.queue.toList.Nodup
  mem_queue : ∀ pattern, pattern ∈ marks.queue ↔ ∃ position, (pattern, position) ∈ visits
  marked : ∀ pattern position, (pattern, position) ∈ visits →
    ∃ first, marks.first.getD pattern none = some first
  first : ∀ pattern first, marks.first.getD pattern none = some first →
    (pattern, first) ∈ visits ∧
      ∀ position, (pattern, position) ∈ visits → d.AtOrAfter first position

variable {d : Direction} {count : Nat} {marks : ScanMarks} {visits : List (PatternId × Nat)}

theorem getD_empty {pattern : Nat} : (empty count).first.getD pattern none = none := by
  simp only [empty, Array.getD_eq_getD_getElem?, Array.getElem?_replicate]
  split <;> rfl

theorem records_empty : (empty count).Records d count [] where
  size := by simp [empty]
  nodup := by simp [empty]
  mem_queue := by simp [empty]
  marked := by simp
  first := by
    intro pattern first h
    rw [getD_empty] at h
    cases h

theorem getD_setIfInBounds {first : Array (Option Nat)} {pattern other : Nat} {value : Option Nat}
    (h : pattern < first.size) :
    (first.setIfInBounds pattern value).getD other none =
      if pattern = other then value else first.getD other none := by
  simp only [Array.getD_eq_getD_getElem?, Array.getElem?_setIfInBounds]
  split
  · simp
  · rfl

theorem mem_append_visit {pattern position other p : Nat} :
    (other, p) ∈ visits ++ [(pattern, position)] ↔
      (other, p) ∈ visits ∨ other = pattern ∧ p = position := by
  simp

/-- A visit that comes no later than those of its pattern before becomes the first of the pattern.
The queue has the pattern then. -/
theorem Records.setFirst (h : marks.Records d count visits) {pattern position : Nat}
    {queue : Array PatternId} (hlt : pattern < count)
    (hbefore : ∀ p, (pattern, p) ∈ visits → d.AtOrAfter position p) (hnodup : queue.toList.Nodup)
    (hqueue : ∀ other, other ∈ queue ↔ other ∈ marks.queue ∨ other = pattern) :
    Records d count ⟨marks.first.setIfInBounds pattern (some position), queue⟩
      (visits ++ [(pattern, position)]) := by
  have hsize : pattern < marks.first.size := by rw [h.size]; exact hlt
  constructor
  case size => simpa using h.size
  case nodup => exact hnodup
  case mem_queue =>
    intro other
    simp only [hqueue, h.mem_queue, mem_append_visit, exists_or, exists_and_left, exists_eq,
      and_true]
  case marked =>
    intro other p hp
    rw [getD_setIfInBounds hsize]
    split
    · exact ⟨position, rfl⟩
    case isFalse hne =>
      rcases mem_append_visit.mp hp with hp | ⟨rfl, rfl⟩
      · exact h.marked other p hp
      · exact absurd rfl hne
  case first =>
    intro other first hfirst
    rw [getD_setIfInBounds hsize] at hfirst
    split at hfirst
    case isTrue heq =>
      subst heq
      obtain rfl := Option.some.inj hfirst
      refine ⟨by simp, fun p hp => ?_⟩
      rcases mem_append_visit.mp hp with hp | ⟨-, rfl⟩
      · exact hbefore p hp
      · exact Direction.AtOrAfter.refl
    case isFalse hne =>
      obtain ⟨hmem, hall⟩ := h.first other first hfirst
      refine ⟨List.mem_append_left _ hmem, fun p hp => ?_⟩
      rcases mem_append_visit.mp hp with hp | ⟨rfl, rfl⟩
      · exact hall p hp
      · exact absurd rfl hne

/-- A visit of a pattern that was not marked puts it in the queue. -/
theorem Records.push (h : marks.Records d count visits) {pattern position : Nat}
    (hlt : pattern < count) (hnone : marks.first.getD pattern none = none) :
    Records d count
      ⟨marks.first.setIfInBounds pattern (some position), marks.queue.push pattern⟩
      (visits ++ [(pattern, position)]) := by
  have hnew : ∀ position, (pattern, position) ∉ visits := by
    intro position hmem
    obtain ⟨first, hfirst⟩ := h.marked pattern position hmem
    rw [hnone] at hfirst
    cases hfirst
  have hout : pattern ∉ marks.queue := by
    intro hmem
    obtain ⟨position, hvisit⟩ := (h.mem_queue pattern).mp hmem
    exact hnew position hvisit
  refine h.setFirst hlt (fun p hp => absurd hp (hnew p)) ?_ fun other => Array.mem_push
  rw [Array.toList_push, List.nodup_append]
  refine ⟨h.nodup, by simp, ?_⟩
  intro a ha b hb
  obtain rfl := List.mem_singleton.mp hb
  rintro rfl
  exact hout (by simpa using ha)

/-- A visit of a marked pattern that comes before its first position moves that position. -/
theorem Records.move (h : marks.Records d count visits) {pattern position first : Nat}
    (hlt : pattern < count) (hfirst : marks.first.getD pattern none = some first)
    (hprecedes : d.precedes position first = true) :
    Records d count { marks with first := marks.first.setIfInBounds pattern (some position) }
      (visits ++ [(pattern, position)]) := by
  obtain ⟨hmem, hall⟩ := h.first pattern first hfirst
  refine h.setFirst hlt (fun p hp => (Direction.atOrAfter_of_precedes hprecedes).trans (hall p hp))
    h.nodup fun other => (or_iff_left_of_imp ?_).symm
  rintro rfl
  exact (h.mem_queue _).mpr ⟨first, hmem⟩

/-- A visit of a marked pattern that comes no earlier than its first position changes nothing. -/
theorem Records.keep (h : marks.Records d count visits) {pattern position first : Nat}
    (hfirst : marks.first.getD pattern none = some first)
    (hprecedes : d.precedes position first = false) :
    Records d count marks (visits ++ [(pattern, position)]) := by
  obtain ⟨hmem, hall⟩ := h.first pattern first hfirst
  constructor
  case size => exact h.size
  case nodup => exact h.nodup
  case mem_queue =>
    intro other
    simp only [h.mem_queue, mem_append_visit, exists_or, exists_and_left, exists_eq, and_true]
    refine (or_iff_left_of_imp ?_).symm
    rintro rfl
    exact ⟨first, hmem⟩
  case marked =>
    intro other p hp
    rcases mem_append_visit.mp hp with hp | ⟨rfl, rfl⟩
    · exact h.marked other p hp
    · exact ⟨first, hfirst⟩
  case first =>
    intro other found hfound
    obtain ⟨hmem', hall'⟩ := h.first other found hfound
    refine ⟨List.mem_append_left _ hmem', fun p hp => ?_⟩
    rcases mem_append_visit.mp hp with hp | ⟨rfl, rfl⟩
    · exact hall' p hp
    · obtain rfl := Option.some.inj (hfirst.symm.trans hfound)
      exact hprecedes

/-- A further visit of a pattern is recorded. -/
theorem Records.yields_mark (h : marks.Records d count visits) {visit : PatternId × Nat}
    (hlt : visit.1 < count) :
    Yields (marks.mark d visit) fun marks => marks.Records d count (visits ++ [visit]) := by
  obtain ⟨pattern, position⟩ := visit
  have hsize : pattern < marks.first.size := by rw [h.size]; exact hlt
  refine (yields_fetch hsize).bind fun entry _ hentry => ?_
  have hentry : marks.first.getD pattern none = entry := by simp [hentry]
  cases entry with
  | none => exact h.push hlt hentry
  | some first =>
    exact Yields.ite (fun hprecedes => h.move hlt hentry hprecedes)
      fun hprecedes => h.keep hentry (Bool.eq_false_iff.mpr hprecedes)

/-- A visit puts its pattern in the queue, unless it is there. -/
theorem Records.yields_mark_queue (h : marks.Records d count visits) {visit : PatternId × Nat}
    (hlt : visit.1 < count) : Yields (marks.mark d visit) fun marks' =>
      marks'.queue =
        if visit.1 ∈ marks.queue then marks.queue else marks.queue.push visit.1 := by
  obtain ⟨pattern, position⟩ := visit
  have hsize : pattern < marks.first.size := by rw [h.size]; exact hlt
  refine (yields_fetch hsize).bind fun entry _ hentry => ?_
  have hentry : marks.first.getD pattern none = entry := by simp [hentry]
  cases entry with
  | none =>
    have hnew : pattern ∉ marks.queue := by
      intro hmem
      obtain ⟨position, hvisit⟩ := (h.mem_queue pattern).mp hmem
      obtain ⟨first, hfirst⟩ := h.marked pattern position hvisit
      rw [hentry] at hfirst
      cases hfirst
    exact (if_neg hnew).symm
  | some first =>
    have hmem : pattern ∈ marks.queue := (h.mem_queue pattern).mpr ⟨first, (h.first _ _ hentry).1⟩
    have hkept : marks.queue = if pattern ∈ marks.queue then marks.queue
        else marks.queue.push pattern := (if_pos hmem).symm
    exact Yields.ite (fun _ => hkept) fun _ => hkept

variable {net : Network}

/-- The visits of all patterns at some stops. -/
def visitsAt (net : Network) (stops : List StopId) : List (PatternId × Nat) :=
  stops.flatMap fun stop => (net.patternsAt.getD stop [])

/-- The visits at some stops are the positions of all patterns there. -/
theorem mem_visitsAt (hnet : net.Sound) {stops : List StopId}
    (hstops : ∀ stop ∈ stops, stop < net.stopCount) {i position : Nat} :
    (i, position) ∈ visitsAt net stops ↔
      ∃ p stop, net.patterns[i]? = some p ∧ p.stops[position]? = some stop ∧ stop ∈ stops := by
  simp only [visitsAt, List.mem_flatMap]
  constructor
  · rintro ⟨stop, hstop, hmem⟩
    have hlt : stop < net.patternsAt.size := by rw [hnet.patternsAt_size]; exact hstops stop hstop
    rw [Array.getD_eq_getD_getElem?, Array.getElem?_eq_getElem hlt, Option.getD_some,
      hnet.mem_patternsAt (Array.getElem?_eq_getElem hlt)] at hmem
    obtain ⟨p, hp, hposition⟩ := hmem
    exact ⟨p, stop, hp, hposition, hstop⟩
  · rintro ⟨p, stop, hp, hposition, hstop⟩
    have hlt : stop < net.patternsAt.size := by rw [hnet.patternsAt_size]; exact hstops stop hstop
    refine ⟨stop, hstop, ?_⟩
    rw [Array.getD_eq_getD_getElem?, Array.getElem?_eq_getElem hlt, Option.getD_some,
      hnet.mem_patternsAt (Array.getElem?_eq_getElem hlt)]
    exact ⟨p, hp, hposition⟩

theorem mem_visitsAt_toList (hnet : net.Sound) {marked : IndexSet}
    (hmarked : ∀ stop, marked.contains stop = true → stop < net.stopCount) {i position : Nat} :
    (i, position) ∈ visitsAt net marked.toList ↔
      ∃ p stop, net.patterns[i]? = some p ∧ p.stops[position]? = some stop ∧
        marked.contains stop = true := by
  rw [mem_visitsAt hnet fun stop hstop => hmarked stop (IndexSet.mem_toList.mp hstop)]
  simp only [IndexSet.mem_toList]

/-- What marking a visit keeps holds of the marks of the stops reached. -/
theorem yields_markStops_of (hnet : net.Sound) {d : Direction} {stops : List StopId}
    (hstops : ∀ stop ∈ stops, stop < net.stopCount)
    {I : List (PatternId × Nat) → ScanMarks → Prop} (hempty : I [] (empty net.patternCount))
    (hmark : ∀ visits (visit : PatternId × Nat) marks, visit.1 < net.patternCount →
      I visits marks → Yields (marks.mark d visit) (I (visits ++ [visit]))) :
    Yields ((empty net.patternCount).markStops net d stops) (I (visitsAt net stops)) := by
  refine Yields.foldlM_done (I := fun done marks => I (visitsAt net done) marks) hempty ?_
  rintro done stop marks ⟨rest, hrest⟩ hmarks
  have hlt : stop < net.patternsAt.size := by
    rw [hnet.patternsAt_size]
    exact hstops stop (by simp [hrest])
  refine (yields_fetch hlt).bind fun visits _ hvisits => ?_
  have hall : visitsAt net (done ++ [stop]) = visitsAt net done ++ visits := by
    simp [visitsAt, hvisits]
  rw [hall]
  refine Yields.foldlM_done (I := fun before marks => I (visitsAt net done ++ before) marks)
    (by simpa using hmarks) ?_
  rintro before ⟨pattern, position⟩ marks ⟨after, rfl⟩ hmarks
  rw [← List.append_assoc]
  refine hmark _ _ _ ?_ hmarks
  obtain ⟨p, hp, -⟩ := (hnet.mem_patternsAt hvisits pattern position).mp (by simp)
  exact (Array.getElem?_eq_some_iff.mp hp).1

/-- The marks of the stops reached are those of the visits of all patterns at these stops. -/
theorem yields_markStops (hnet : net.Sound) (d : Direction) {stops : List StopId}
    (hstops : ∀ stop ∈ stops, stop < net.stopCount) :
    Yields ((empty net.patternCount).markStops net d stops) fun marks =>
      marks.Records d net.patternCount (visitsAt net stops) :=
  yields_markStops_of (I := fun visits marks => marks.Records d net.patternCount visits) hnet hstops
    records_empty fun _ _ _ hlt hmarks => hmarks.yields_mark hlt

/-- The plan has each visited pattern once, with the first of its visits in the direction. -/
theorem Records.mem_plan (h : marks.Records d count visits) {pattern first : Nat} :
    (pattern, first) ∈ marks.plan ↔
      (pattern, first) ∈ visits ∧ ∀ position, (pattern, position) ∈ visits →
        d.AtOrAfter first position := by
  simp only [plan, List.mem_filterMap, Array.mem_toList_iff, Option.map_eq_some_iff,
    Prod.mk.injEq]
  constructor
  · rintro ⟨pattern, -, first, hfirst, rfl, rfl⟩
    exact h.first pattern first hfirst
  · rintro ⟨hmem, hall⟩
    obtain ⟨first', hfirst'⟩ := h.marked pattern first hmem
    obtain ⟨hmem', hall'⟩ := h.first pattern first' hfirst'
    have : first' = first := by
      have h₁ := hall first' hmem'
      have h₂ := hall' first hmem
      cases d <;> simp [Direction.AtOrAfter, Direction.precedes] at h₁ h₂ <;> omega
    exact ⟨pattern, (h.mem_queue pattern).mpr ⟨first, hmem⟩, first', hfirst', rfl, this⟩

/-- Every pattern that is visited is in the plan. -/
theorem Records.exists_mem_plan (h : marks.Records d count visits) {pattern position : Nat}
    (hmem : (pattern, position) ∈ visits) : ∃ first, (pattern, first) ∈ marks.plan := by
  obtain ⟨first, hfirst⟩ := h.marked pattern position hmem
  exact ⟨first, h.mem_plan.mpr (h.first pattern first hfirst)⟩

theorem getElem?_foldl_clear (queue : List Nat) (first : Array (Option Nat)) (i : Nat) :
    (queue.foldl (fun first pattern => first.setIfInBounds pattern none) first)[i]? =
      if i ∈ queue then (first[i]?).map fun _ => none else first[i]? := by
  induction queue generalizing first with
  | nil => simp
  | cons pattern rest ih =>
    rw [List.foldl_cons, ih, Array.getElem?_setIfInBounds]
    by_cases hi : pattern = i
    · subst hi
      by_cases hlt : pattern < first.size <;> simp [hlt]
    · have : ¬i = pattern := fun h => hi h.symm
      simp [hi, this]

/-- Clearing leaves no mark behind. -/
theorem Records.clear_eq (h : marks.Records d count visits) : marks.clear = empty count := by
  suffices marks.queue.foldl (fun first pattern => first.setIfInBounds pattern none)
      marks.first = Array.replicate count none by
    rw [clear, this, empty]
  rw [← Array.foldl_toList]
  apply Array.ext_getElem?
  intro i
  rw [getElem?_foldl_clear, Array.getElem?_replicate]
  by_cases hlt : i < count
  · have hsize : i < marks.first.size := by rw [h.size]; exact hlt
    rw [if_pos hlt, Array.getElem?_eq_getElem hsize]
    split
    · rfl
    case isFalse hqueue =>
      cases hentry : marks.first[i] with
      | none => rfl
      | some position =>
        have hmarked : marks.first.getD i none = some position := by simp [hsize, hentry]
        have hmem := (h.first i position hmarked).1
        exact absurd (by simpa using (h.mem_queue i).mpr ⟨position, hmem⟩) hqueue
  · have hsize : marks.first[i]? = none :=
      Array.getElem?_eq_none (by rw [h.size]; omega)
    rw [if_neg hlt, hsize]
    split <;> rfl

end ScanMarks

end JourneyPlanner
