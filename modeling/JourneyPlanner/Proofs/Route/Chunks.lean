import JourneyPlanner.Proofs.Route.Criteria

/-!
# Searches of a route

A route divides its start times into chunks and searches each of them. What a search answers are
itineraries with the criteria of its finishes, and the route answers the best of all of them.

* `LabelScene.MeetsFinishes`: itineraries with the criteria of finishes.
* `Itinerary.best`: the best of some itineraries.
* `Network.Answers`: how the answer of a route comes from its searches.
* `Network.yields_routeChunk`: what one search answers.
* `Network.yields_route`: a route overflows or answers.
-/

namespace JourneyPlanner

namespace LabelScene

variable {c : LabelScene} {course : Course} {request : Request} {s s₁ : Labels} {maxRounds : Nat}
  {id : LabelId}

/-! ### Itineraries -/

theorem trail?_congr (h : s₁.arena = s.arena) : c.trail? s₁ id = c.trail? s id := by
  induction id using Nat.strong_induction_on with
  | h id ih =>
    have hlabel : s₁.label id = s.label id := by rw [Labels.label, Labels.label, h]
    rw [trail?, trail?, hlabel]
    congr 1
    funext label
    cases label.origin with
    | access leg => rfl
    | ride ride previous =>
      dsimp only
      split
      · rw [ih previous ‹_›]
      · rfl
    | walk source duration previous =>
      dsimp only
      split
      · rw [ih previous ‹_›]
      · rfl

/-- The itinerary of a finish is read off the labels alone. -/
theorem itinerary?_congr (h : s₁.arena = s.arena) {finish : Finish} :
    c.itinerary? s₁ finish = c.itinerary? s finish := by
  rw [itinerary?, itinerary?, trail?_congr h, Labels.label, Labels.label, h]

/-- The itineraries of a state depend on its labels and finishes only. -/
theorem itineraries_congr (harena : s₁.arena = s.arena) (hfinishes : s₁.finishes = s.finishes) :
    c.itineraries s₁ = c.itineraries s := by
  have hitinerary : c.itinerary? s₁ = c.itinerary? s := funext fun _ => itinerary?_congr harena
  rw [itineraries, itineraries, hitinerary, hfinishes]

/-- Some itineraries have the criteria of some finishes, one by one. -/
def MeetsFinishes (d : Direction) (itineraries : List Itinerary)
    (finishes : Front Finish JourneyCriteria) : Prop :=
  itineraries.map (·.criteria d) = finishes.entries.map (·.2)

namespace MeetsFinishes

variable {d : Direction} {itineraries : List Itinerary} {finishes : Front Finish JourneyCriteria}

theorem complete (h : MeetsFinishes d itineraries finishes) {e : Finish × JourneyCriteria}
    (he : e ∈ finishes.entries) : ∃ it ∈ itineraries, it.criteria d = e.2 := by
  have hmem : e.2 ∈ itineraries.map (·.criteria d) := h ▸ List.mem_map.mpr ⟨e, he, rfl⟩
  exact List.mem_map.mp hmem

theorem sound (h : MeetsFinishes d itineraries finishes) {it : Itinerary} (hit : it ∈ itineraries) :
    ∃ e ∈ finishes.entries, it.criteria d = e.2 := by
  have hmem : it.criteria d ∈ finishes.entries.map (·.2) := h ▸ List.mem_map.mpr ⟨it, hit, rfl⟩
  obtain ⟨e, he, hcriteria⟩ := List.mem_map.mp hmem
  exact ⟨e, he, hcriteria.symm⟩

/-- Itineraries that meet finishes have the criteria of the finishes and no others. -/
theorem exists_iff (h : MeetsFinishes d itineraries finishes) {k : JourneyCriteria} :
    (∃ it ∈ itineraries, it.criteria d = k) ↔ ∃ e ∈ finishes.entries, e.2 = k := by
  constructor
  · rintro ⟨it, hit, rfl⟩
    obtain ⟨e, he, hcriteria⟩ := h.sound hit
    exact ⟨e, he, hcriteria.symm⟩
  · rintro ⟨e, he, rfl⟩
    exact h.complete he

end MeetsFinishes

/-- Where every finish has an itinerary, these are the itineraries of a state, one by one. -/
theorem yields_itineraries_of {R : Finish × JourneyCriteria → Itinerary → Prop}
    (h : ∀ e ∈ s.finishes.entries, Yields (c.itinerary? s e.1) fun found =>
      ∃ it, found = some it ∧ R e it) :
    Yields (c.itineraries s) (List.Forall₂ R s.finishes.entries) := by
  rw [itineraries, Front.elements, List.mapM_map]
  refine (Yields.mapM h).bind fun found hmap hfound => ?_
  clear hmap h
  show List.Forall₂ R s.finishes.entries (found.filterMap id)
  generalize s.finishes.entries = entries at hfound
  induction hfound with
  | nil => exact .nil
  | cons hfirst _ ih =>
    obtain ⟨it, rfl, hit⟩ := hfirst
    exact .cons hit ih

/-- The itineraries of a search meet its finishes, if it goes forward or follows no rules. -/
theorem yields_itineraries (hs : s.Sound c.direction c.stopCount maxRounds)
    (hj : c.Justified course s) (hnet : course.network.Sound) (hfor : c.For course request)
    (hagrees : c.direction = .forward ∨ c.rules = none) (hslacks : c.slacks.Nonneg)
    (haccess : ∀ leg ∈ course.access, leg.onBoard = false)
    (hegress : ∀ leg ∈ c.egress, leg.onBoard = false) (hbyte : maxRounds ≤ 255) :
    Yields (c.itineraries s) (MeetsFinishes c.direction · s.finishes) := by
  have hall := yields_itineraries_of fun e he => yields_itinerary hs hj hnet hfor hagrees hslacks
    haccess hegress hbyte (e := e) he
  refine hall.mono fun itineraries _ hall => ?_
  rw [MeetsFinishes, ← List.forall₂_eq_eq_eq, List.forall₂_map_left_iff,
    List.forall₂_map_right_iff]
  exact hall.flip

end LabelScene

/-! ### Start times -/

namespace Request

variable {request : Request}

/-- The times a number of steps away and nearer, the furthest one first. -/
theorem yields_stepsFrom {d : Direction} {time : Time} {step : Span} {count : Nat} :
    Yields (startTimes.stepsFrom d time step count) (· =
      (List.range (count + 1)).reverse.map fun steps : Nat => d.shift time (steps * step)) := by
  induction count with
  | zero =>
    refine Direction.yields_plus.bind ?_
    rintro _ - ⟨rfl, -⟩
    rw [yields_pure, List.range_one, List.reverse_singleton, List.map_singleton, Nat.cast_zero,
      zero_mul]
  | succ count ih =>
    refine Direction.yields_plus.bind ?_
    rintro _ - ⟨rfl, -⟩
    refine ih.bind ?_
    rintro times - rfl
    rw [yields_pure, List.range_succ (n := count + 1), List.reverse_concat, List.map_cons]

/-- The start times are the steps in the window of a request. -/
theorem yields_startTimes_eq : Yields request.startTimes
    (· = (List.range ((max request.window 0 / max request.step 1).toNat + 1)).reverse.map
      fun steps : Nat => request.direction.shift request.time (steps * max request.step 1)) :=
  yields_stepsFrom

theorem step_nonneg : 0 ≤ max request.step 1 := zero_le_one.trans (le_max_right _ _)

/-- The last start time is the one asked for, and the search meets no start time before it. -/
theorem yields_startTimes : Yields request.startTimes fun times =>
    times.getLast? = some request.time ∧
      ∀ start ∈ times, request.direction.NoLater request.time start := by
  refine yields_startTimes_eq.mono ?_
  rintro _ - rfl
  constructor
  · rw [List.range_succ_eq_map, List.reverse_cons, List.map_append, List.map_singleton,
      List.getLast?_concat, Nat.cast_zero, zero_mul, Direction.shift_zero]
  · intro start hstart
    obtain ⟨steps, -, rfl⟩ := List.mem_map.mp hstart
    rw [Direction.noLater_shift_iff, Direction.gap_self, zero_add]
    exact mul_nonneg (Int.natCast_nonneg _) step_nonneg

/-- A search meets its start times one before the other. -/
theorem startTimes_sorted {times : List Time} (h : request.startTimes = .ok times) :
    times.Pairwise fun time earlier => request.direction.NoLater earlier time := by
  rw [yields_startTimes_eq.of_ok h, List.pairwise_map, List.pairwise_reverse]
  refine List.pairwise_lt_range.imp fun hsteps => ?_
  exact Direction.NoLater.refl.shift
    (Int.mul_le_mul_of_nonneg_right (Nat.cast_le.mpr hsteps.le) step_nonneg)

/-- With steps of a second every time in the window is a start time. -/
theorem mem_startTimes {times : List Time} {time : Time} (h : request.startTimes = .ok times)
    (hstep : request.step = 1) (htime : request.direction.NoLater request.time time)
    (hwindow : request.direction.gap request.time time ≤ request.window) : time ∈ times := by
  rw [yields_startTimes_eq.of_ok h, hstep]
  refine List.mem_map.mpr ⟨(request.direction.gap request.time time).toNat, ?_, ?_⟩
  · rw [List.mem_reverse, List.mem_range, max_self, Int.ediv_one]
    omega
  · rw [Int.toNat_of_nonneg htime]
    cases request.direction <;> simp [Direction.shift, Direction.gap]

/-- A chunk is a part of the list in the same order. -/
theorem sublist_of_mem_chunksOf {α : Type} {length : Nat} {xs chunk : List α}
    (hchunk : chunk ∈ chunksOf length xs) : chunk.Sublist xs := by
  fun_induction chunksOf length xs with
  | case1 => cases hchunk
  | case2 xs _ ih =>
    rcases List.mem_cons.mp hchunk with rfl | hchunk
    · exact List.take_sublist _ _
    · exact (ih hchunk).trans (List.drop_sublist _ _)

/-- The start times of a chunk are searched in the same order. -/
theorem sublist_of_mem_timeChunks {times chunk : List Time}
    (hchunk : chunk ∈ request.timeChunks times) : chunk.Sublist times := by
  unfold timeChunks at hchunk
  dsimp only at hchunk
  split at hchunk
  · rw [List.mem_singleton.mp hchunk]
  · exact sublist_of_mem_chunksOf hchunk

/-- The chunks consist of the start times. -/
theorem mem_of_mem_timeChunks {times chunk : List Time} {time : Time}
    (hchunk : chunk ∈ request.timeChunks times) (htime : time ∈ chunk) : time ∈ times :=
  (sublist_of_mem_timeChunks hchunk).subset htime

theorem timeChunks_eq_singleton {times : List Time} (h : request.chunks ≤ 1) :
    request.timeChunks times = [times] := by
  have hcount : min (max request.chunks 1) (max times.length 1) ≤ 1 := by omega
  exact if_pos hcount

/-- Every element is in a chunk. -/
theorem exists_mem_chunksOf {α : Type} {length : Nat} (hlength : 0 < length) {xs : List α} {x : α}
    (h : x ∈ xs) : ∃ chunk ∈ chunksOf length xs, x ∈ chunk := by
  fun_induction chunksOf length xs with
  | case1 xs hnone =>
    rcases hnone with rfl | hzero
    · cases h
    · omega
  | case2 xs hsome ih =>
    rw [← List.take_append_drop length xs, List.mem_append] at h
    rcases h with hfirst | hrest
    · exact ⟨_, List.mem_cons_self, hfirst⟩
    · obtain ⟨chunk, hchunk, hx⟩ := ih hrest
      exact ⟨chunk, List.mem_cons_of_mem _ hchunk, hx⟩

/-- Every start time belongs to a chunk. -/
theorem exists_mem_timeChunks {times : List Time} {time : Time} (h : time ∈ times) :
    ∃ chunk ∈ request.timeChunks times, time ∈ chunk := by
  have hlength : 0 < times.length := List.length_pos_of_mem h
  have hsplit : ∀ count, count ≤ max times.length 1 → ∃ chunk ∈ (if count ≤ 1 then [times]
      else chunksOf ((times.length + count - 1) / count) times), time ∈ chunk := by
    intro count _
    split
    · exact ⟨times, by simp, h⟩
    · refine exists_mem_chunksOf (Nat.div_pos ?_ ?_) h <;> omega
  exact hsplit _ (min_le_right _ _)

end Request

/-- Where no leg of a request is on board, none of its search is. -/
theorem Request.walks_of_walks {request : Request}
    (haccess : ∀ leg ∈ request.access, leg.onBoard = false)
    (hegress : ∀ leg ∈ request.egress, leg.onBoard = false) :
    (∀ leg ∈ request.searchAccess, leg.onBoard = false) ∧
      ∀ leg ∈ request.searchEgress, leg.onBoard = false := by
  unfold searchAccess searchEgress
  cases request.direction with
  | forward => exact ⟨haccess, hegress⟩
  | reverse => exact ⟨hegress, haccess⟩

/-! ### Answers -/

namespace Bounds

variable {bounds : Bounds} {legs : List Connector}

/-- The summary says whether a leg leads to the end. -/
theorem yields_summary : Yields (bounds.summary legs) fun summary =>
    ∀ leg ∈ legs, bounds.at? leg.stop ≠ none → summary.reachable = true := by
  refine Yields.foldlM_done
    (I := fun (done : List Connector) (summary : BoundSummary) =>
      ∀ leg ∈ done, bounds.at? leg.stop ≠ none → summary.reachable = true)
    (by simp) fun done leg summary _ hdone => ?_
  unfold addLeg
  cases hat : bounds.at? leg.stop with
  | none =>
    intro leg' hleg hsome
    rcases List.mem_append.mp hleg with hleg | hleg
    · exact hdone leg' hleg hsome
    · obtain rfl := List.mem_singleton.mp hleg
      exact absurd hat hsome
  | some b =>
    refine (yields_word _).bind ?_
    rintro _ - ⟨rfl, -⟩ _ - -
    rfl

end Bounds

theorem Tariff.yields_ofOptions {options : CostOptions} :
    Yields (Tariff.ofOptions options) fun _ => True :=
  (yields_word _).bind fun _ _ _ => trivial

def Itinerary.best (d : Direction) (itineraries : List Itinerary) : List Itinerary :=
  (Front.ofList d.dominatesJourney (itineraries.map fun it => (it, it.criteria d))).elements

namespace Itinerary

variable {d : Direction} {itineraries : List Itinerary} {it : Itinerary}

theorem mem_of_mem_best (h : it ∈ best d itineraries) : it ∈ itineraries := by
  obtain ⟨e, he, rfl⟩ := List.mem_map.mp h
  obtain ⟨it, hit, rfl⟩ := List.mem_map.mp (Front.mem_ofList he)
  exact hit

/-- Every itinerary has one among the best that is at least as good. -/
theorem exists_best (h : it ∈ itineraries) :
    ∃ it' ∈ best d itineraries, d.dominatesJourney (it'.criteria d) (it.criteria d) = true := by
  have hmem : (it, it.criteria d) ∈ itineraries.map fun it => (it, it.criteria d) :=
    List.mem_map.mpr ⟨it, h, rfl⟩
  obtain ⟨e, he, hdom⟩ := Front.covers_iff.mp
    (Front.covers_ofList d.dominatesJourney_isOrder.1 hmem)
  obtain ⟨it', -, rfl⟩ := List.mem_map.mp (Front.mem_ofList he)
  exact ⟨it', List.mem_map.mpr ⟨_, he, rfl⟩, hdom⟩

end Itinerary

namespace Network

/-- How itineraries come from the searches of some chunks: no finish of a search is better than all
of them, and each of them has the criteria of a finish. -/
structure Answers (net : Network) (request : Request) (tariff : Tariff) (bounds : Option Bounds)
    (chunks : List (List Time)) (states : List Labels) (itineraries : List Itinerary) : Prop where
  searched : List.Forall₂ (fun chunk s =>
    (net.labelScene request tariff bounds).Iterations (net.labelCourse request)
      (net.labelProgress request).state chunk s) chunks states
  covered : ∀ s ∈ states, ∀ e ∈ s.finishes.entries, ∃ it ∈ itineraries,
    request.direction.dominatesJourney (it.criteria request.direction) e.2 = true
  finished : ∀ it ∈ itineraries, ∃ s ∈ states, ∃ e ∈ s.finishes.entries,
    it.criteria request.direction = e.2

variable {net : Network} {request : Request} {tariff : Tariff} {bounds : Option Bounds}
  {times : List Time}

theorem maxRounds_le : request.maxRounds ≤ 255 := min_le_right _ _

/-- A search answers itineraries with the criteria of its finishes. -/
theorem yields_routeChunk (hnet : net.Sound)
    (hagrees : request.direction = .forward ∨ request.rules net = none)
    (hslacks : request.slacks.Nonneg) (haccess : ∀ leg ∈ request.searchAccess, leg.onBoard = false)
    (hegress : ∀ leg ∈ request.searchEgress, leg.onBoard = false) :
    Yields (net.routeChunk request (net.labelScene request tariff bounds) .unlimited times)
      fun found => ∃ s, (net.labelScene request tariff bounds).Iterations (net.labelCourse request)
        (net.labelProgress request).state times s ∧
        LabelScene.MeetsFinishes request.direction found.1 s.finishes := by
  refine (yields_search hnet).bind ?_
  rintro progress - ⟨s, hiterations, hsound, harena, hfinishes⟩
  rw [← LabelScene.itineraries_congr harena hfinishes]
  refine (LabelScene.yields_itineraries hsound
    (hiterations.justified Labels.new_sound LabelScene.justified_new) hnet labelScene_for hagrees
    hslacks haccess hegress maxRounds_le).bind fun itineraries _ hmeets => ?_
  exact ⟨s, hiterations, hmeets⟩

/-- The best itineraries of some searches. -/
theorem exists_answers {chunks : List (List Time)} {found : List (List Itinerary × Nat)}
    (h : List.Forall₂ (fun chunk (found : List Itinerary × Nat) => ∃ s,
      (net.labelScene request tariff bounds).Iterations (net.labelCourse request)
        (net.labelProgress request).state chunk s ∧
      LabelScene.MeetsFinishes request.direction found.1 s.finishes) chunks found) :
    ∃ states, net.Answers request tariff bounds chunks states
      (Itinerary.best request.direction (found.flatMap (·.1))) := by
  have hstates : ∃ states, List.Forall₂ (fun chunk s =>
      (net.labelScene request tariff bounds).Iterations (net.labelCourse request)
        (net.labelProgress request).state chunk s) chunks states ∧
      (∀ s ∈ states, ∃ part ∈ found,
        LabelScene.MeetsFinishes request.direction part.1 s.finishes) ∧
      ∀ part ∈ found, ∃ s ∈ states,
        LabelScene.MeetsFinishes request.direction part.1 s.finishes := by
    induction h with
    | nil => exact ⟨[], .nil, by simp, by simp⟩
    | cons hfirst _ ih =>
      obtain ⟨s, hiterations, hmeets⟩ := hfirst
      obtain ⟨states, hsearched, hcovered, hfinished⟩ := ih
      refine ⟨s :: states, .cons hiterations hsearched, ?_, ?_⟩
      · exact List.forall_mem_cons.mpr ⟨⟨_, List.mem_cons_self, hmeets⟩, fun s' hs' =>
          (hcovered s' hs').imp fun _ h => ⟨List.mem_cons_of_mem _ h.1, h.2⟩⟩
      · exact List.forall_mem_cons.mpr ⟨⟨_, List.mem_cons_self, hmeets⟩, fun part hpart =>
          (hfinished part hpart).imp fun _ h => ⟨List.mem_cons_of_mem _ h.1, h.2⟩⟩
  obtain ⟨states, hsearched, hcovered, hfinished⟩ := hstates
  refine ⟨states, hsearched, fun s hs e he => ?_, fun it hit => ?_⟩
  · obtain ⟨part, hpart, hmeets⟩ := hcovered s hs
    obtain ⟨it, hit, hcriteria⟩ := hmeets.complete he
    rw [← hcriteria]
    exact Itinerary.exists_best (List.mem_flatMap.mpr ⟨part, hpart, hit⟩)
  · obtain ⟨part, hpart, hit⟩ := List.mem_flatMap.mp (Itinerary.mem_of_mem_best hit)
    obtain ⟨s, hs, hmeets⟩ := hfinished part hpart
    obtain ⟨e, he, hcriteria⟩ := hmeets.sound hit
    exact ⟨s, hs, e, he, hcriteria⟩

/-- Every chunk has a state that its iterations lead to. -/
theorem Answers.exists_mem {chunks : List (List Time)} {chunk : List Time} {states : List Labels}
    {itineraries : List Itinerary}
    (h : net.Answers request tariff bounds chunks states itineraries) (hchunk : chunk ∈ chunks) :
    ∃ s ∈ states, (net.labelScene request tariff bounds).Iterations (net.labelCourse request)
      (net.labelProgress request).state chunk s := by
  have hsearched := h.searched
  clear h
  induction hsearched with
  | nil => cases hchunk
  | cons hfirst _ ih =>
    rcases List.mem_cons.mp hchunk with rfl | hchunk
    · exact ⟨_, List.mem_cons_self, hfirst⟩
    · obtain ⟨s, hs, hiterations⟩ := ih hchunk
      exact ⟨s, List.mem_cons_of_mem _ hs, hiterations⟩

/-- Every state is what the iterations of a chunk lead to. -/
theorem Answers.exists_chunk {chunks : List (List Time)} {states : List Labels}
    {itineraries : List Itinerary} {s : Labels}
    (h : net.Answers request tariff bounds chunks states itineraries) (hs : s ∈ states) :
    ∃ chunk ∈ chunks, (net.labelScene request tariff bounds).Iterations (net.labelCourse request)
      (net.labelProgress request).state chunk s := by
  have hsearched := h.searched
  clear h
  induction hsearched with
  | nil => cases hs
  | cons hfirst _ ih =>
    rcases List.mem_cons.mp hs with rfl | hs
    · exact ⟨_, List.mem_cons_self, hfirst⟩
    · obtain ⟨chunk, hchunk, hiterations⟩ := ih hs
      exact ⟨chunk, List.mem_cons_of_mem _ hchunk, hiterations⟩

/-- All transfers of an itinerary are compared. -/
theorem Answers.transferCount_eq {chunks : List (List Time)} {states : List Labels}
    {itineraries : List Itinerary} {it : Itinerary}
    (h : net.Answers request tariff bounds chunks states itineraries) (hit : it ∈ itineraries) :
    it.transferCount = (it.criteria request.direction).transfers := by
  obtain ⟨s, hs, e, he, hcriteria⟩ := h.finished it hit
  obtain ⟨chunk, -, hiterations⟩ := h.exists_chunk hs
  obtain ⟨label, -, -, -, -, hfinish⟩ :=
    (hiterations.justified Labels.new_sound LabelScene.justified_new).finish he
  have hcount : min it.transferCount 255 = min (label.round + e.1.leg.onBoard.toNat) 255 - 1 :=
    congrArg JourneyCriteria.transfers (hcriteria.trans hfinish)
  show it.transferCount = min it.transferCount 255
  omega

/-- A route overflows or answers the best that its searches find. It makes none if no leg leads to
the end. -/
theorem yields_route (hnet : net.Sound)
    (hagrees : request.direction = .forward ∨ request.rules net = none)
    (hslacks : request.slacks.Nonneg) (haccess : ∀ leg ∈ request.searchAccess, leg.onBoard = false)
    (hegress : ∀ leg ∈ request.searchEgress, leg.onBoard = false) :
    Yields (net.route request) fun result => ∃ tariff bounds times,
      Tariff.ofOptions request.costs = .ok tariff ∧ net.bounds request tariff = .ok bounds ∧
      request.startTimes = .ok times ∧
      (((∀ leg ∈ request.searchAccess, bounds.at? leg.stop = none) ∧ result.itineraries = []) ∨
        ∃ states, net.Answers request tariff (some bounds) (request.timeChunks times) states
          result.itineraries) := by
  refine Tariff.yields_ofOptions.bind fun tariff htariff _ => ?_
  refine Yields.bind (P := fun _ => True) trivial fun _ _ _ => ?_
  refine (yields_bounds hnet).bind fun bounds hbounds _ => ?_
  refine Bounds.yields_summary.bind fun summary _ hsummary => ?_
  refine Request.yields_startTimes.bind fun times htimes _ => ?_
  refine Yields.ite (fun hunreachable => ?_) fun _ => ?_
  · refine ⟨tariff, bounds, times, htariff, hbounds, htimes, .inl ⟨fun leg hleg => ?_, rfl⟩⟩
    by_contra hsome
    rw [hsummary leg hleg hsome] at hunreachable
    cases hunreachable
  · refine (Yields.mapM fun chunk _ =>
      yields_routeChunk hnet hagrees hslacks haccess hegress).bind fun found _ hfound => ?_
    refine ⟨tariff, bounds, times, htariff, hbounds, htimes, .inr ?_⟩
    have hbest := exists_answers hfound
    rwa [Itinerary.best, List.map_flatMap] at hbest

end Network

end JourneyPlanner
