import JourneyPlanner.Proofs.Network.Reversal
import JourneyPlanner.Proofs.Search.Rounds

/-!
# Searches in reversed time

A search in a direction goes through a network as a search in the opposite direction goes through
the network in reversed time. It is enough that the operations of the two searches concur: then so
do the rides along a pattern, the rounds of an iteration and the iterations of a run.

* `ScanMarks.concur_markStops`: both rounds ride the same patterns in the same order, from opposite
  positions on.
* `Scheme.Reversal`: the operations of two searches concur.
* `Scheme.Reversal.concur_run`: their runs concur.
-/

namespace JourneyPlanner

/-! ### The patterns of a round -/

/-- The number of positions of a pattern, none outside the network. -/
def Network.patternLength (net : Network) (pattern : PatternId) : Nat :=
  ((net.patterns[pattern]?).map Pattern.length).getD 0

/-- A visit of a pattern in reversed time. -/
def Network.reverseVisit (net : Network) (visit : PatternId × Nat) : PatternId × Nat :=
  (visit.1, fromEnd (net.patternLength visit.1) visit.2)

theorem Network.patternLength_eq {net : Network} {i : Nat} {p : Pattern}
    (hp : net.patterns[i]? = some p) : net.patternLength i = p.length := by
  rw [patternLength, hp]
  rfl

namespace ScanMarks

/-- The queue of patterns in the order in which they are met. -/
def queueOf (patterns : List PatternId) : Array PatternId :=
  patterns.foldl (fun queue pattern => if pattern ∈ queue then queue else queue.push pattern) #[]

variable {net : Network} {d : Direction} {stops : List StopId} {marks marks' : ScanMarks}

/-- The patterns that are visited are in the queue in the order in which they are met. -/
theorem yields_markStops_queue (hnet : net.Sound) (d : Direction)
    (hstops : ∀ stop ∈ stops, stop < net.stopCount) :
    Yields ((empty net.patternCount).markStops net d stops) fun marks =>
      marks.Records d net.patternCount (visitsAt net stops) ∧
        marks.queue = queueOf ((visitsAt net stops).map (·.1)) := by
  refine yields_markStops_of (I := fun visits marks =>
    marks.Records d net.patternCount visits ∧ marks.queue = queueOf (visits.map (·.1)))
    hnet hstops ⟨records_empty, rfl⟩ ?_
  rintro visits visit marks hlt ⟨hrecords, hqueue⟩
  refine ((hrecords.yields_mark hlt).and (hrecords.yields_mark_queue hlt)).mono ?_
  rintro marks' - ⟨hrecords', hqueue'⟩
  refine ⟨hrecords', ?_⟩
  rw [hqueue', hqueue, queueOf, queueOf, List.map_append, List.foldl_append]
  rfl

theorem mem_visitsAt_reversed (hnet : net.Sound) (hstops : ∀ stop ∈ stops, stop < net.stopCount)
    {i position : Nat} :
    (i, position) ∈ visitsAt net.reversed stops ↔
      position < net.patternLength i ∧ net.reverseVisit (i, position) ∈ visitsAt net stops := by
  rw [mem_visitsAt hnet.reversed hstops, Network.reverseVisit, mem_visitsAt hnet hstops]
  constructor
  · rintro ⟨p', stop, hp', hstop, hmem⟩
    obtain ⟨p, hp, rfl⟩ := Network.exists_of_patterns_reversed hp'
    have hlt : position < p.length := by
      simpa [Pattern.reversed, Pattern.length] using (Array.getElem?_eq_some_iff.mp hstop).1
    rw [Network.patternLength_eq hp]
    refine ⟨hlt, p, stop, hp, ?_, hmem⟩
    change p.stops[fromEnd p.length position]? = _
    rw [← Pattern.getElem?_stops_reversed (fromEnd_lt hlt), fromEnd_fromEnd hlt]
    exact hstop
  · rintro ⟨hlt, p, stop, hp, hstop, hmem⟩
    rw [Network.patternLength_eq hp] at hlt hstop
    refine ⟨p.reversed, stop, by rw [Network.getElem?_patterns_reversed, hp]; rfl, ?_, hmem⟩
    rw [← fromEnd_fromEnd hlt, Pattern.getElem?_stops_reversed (fromEnd_lt hlt)]
    exact hstop

theorem lt_patternLength (hnet : net.Sound) (hstops : ∀ stop ∈ stops, stop < net.stopCount)
    {visit : PatternId × Nat} (h : visit ∈ visitsAt net stops) :
    visit.2 < net.patternLength visit.1 := by
  obtain ⟨p, stop, hp, hstop, -⟩ := (mem_visitsAt hnet hstops).mp h
  rw [Network.patternLength_eq hp]
  exact (Array.getElem?_eq_some_iff.mp hstop).1

/-- A pattern is ridden from opposite positions on. -/
theorem first_reversed (hnet : net.Sound) (hstops : ∀ stop ∈ stops, stop < net.stopCount)
    {count : Nat} (h : marks.Records d count (visitsAt net stops))
    (h' : marks'.Records d.opposite count (visitsAt net.reversed stops)) (i : PatternId) :
    marks'.first.getD i none = (marks.first.getD i none).map (fromEnd (net.patternLength i)) := by
  cases hfirst : marks.first.getD i none with
  | none =>
    cases hfirst' : marks'.first.getD i none with
    | none => rfl
    | some first' =>
      obtain ⟨-, hvisit⟩ := (mem_visitsAt_reversed hnet hstops).mp (h'.first i first' hfirst').1
      obtain ⟨first, hmarked⟩ := h.marked _ _ hvisit
      rw [hfirst] at hmarked
      cases hmarked
  | some first =>
    obtain ⟨hvisit, hbefore⟩ := h.first i first hfirst
    have hlt := lt_patternLength hnet hstops hvisit
    have hvisit' : (i, fromEnd (net.patternLength i) first) ∈ visitsAt net.reversed stops := by
      rw [mem_visitsAt_reversed hnet hstops, Network.reverseVisit, fromEnd_fromEnd hlt]
      exact ⟨fromEnd_lt hlt, hvisit⟩
    obtain ⟨first', hfirst'⟩ := h'.marked _ _ hvisit'
    obtain ⟨hmem, hbefore'⟩ := h'.first i first' hfirst'
    obtain ⟨hlt', hmem⟩ := (mem_visitsAt_reversed hnet hstops).mp hmem
    -- Each of the two positions is met no later than the other one.
    have hle := hbefore' _ hvisit'
    have hge := hbefore _ hmem
    rw [← fromEnd_fromEnd hlt', Direction.AtOrAfter,
      Direction.precedes_fromEnd hlt (fromEnd_lt hlt')] at hle
    rw [hfirst', Option.map_some, ← fromEnd_fromEnd hlt']
    congr 2
    change d.precedes (fromEnd (net.patternLength i) first') first = false at hge
    cases d <;> simp [Direction.precedes] at hle hge <;> omega

/-- Both rounds ride the same patterns in the same order, from opposite positions on. -/
theorem concur_markStops (hnet : net.Sound)
    (hvisits : net.patternsAt = Draft.patternsByStop net.stopCount net.patterns)
    (d : Direction) (hstops : ∀ stop ∈ stops, stop < net.stopCount) :
    Concur (fun marks marks' => marks'.plan = marks.plan.map net.reverseVisit ∧
        (∀ visit ∈ marks.plan, visit.2 < net.patternLength visit.1) ∧
        marks.clear = .empty net.patternCount ∧ marks'.clear = .empty net.reversed.patternCount)
      ((empty net.patternCount).markStops net d stops)
      ((empty net.reversed.patternCount).markStops net.reversed d.opposite stops) := by
  refine .of_yields (yields_markStops_queue hnet d hstops)
    (yields_markStops_queue hnet.reversed d.opposite hstops) ?_
  rintro marks marks' ⟨hrecords, hqueue⟩ ⟨hrecords', hqueue'⟩
  have hcount : net.reversed.patternCount = net.patternCount := by
    simp [Network.patternCount, Network.reversed]
  refine ⟨?_, fun visit hvisit => ?_, hrecords.clear_eq, hrecords'.clear_eq⟩
  · have hsame : (visitsAt net.reversed stops).map (·.1) = (visitsAt net stops).map (·.1) := by
      simp only [visitsAt, List.map_flatMap, hvisits]
      simp only [Network.reversed, Draft.map_fst_patternsByStop_reversed]
    rw [hcount] at hrecords'
    rw [plan, plan, hqueue, hqueue', hsame, List.map_filterMap]
    congr 1
    funext i
    rw [first_reversed hnet hstops hrecords hrecords']
    cases marks.first.getD i none <;> rfl
  · exact lt_patternLength hnet hstops (hrecords.mem_plan.mp hvisit).1

end ScanMarks

/-! ### Operations -/

/-- The operations of a search on a network in a direction concur with those of another one in
reversed time. States are related by `S`, and what is on board of a pattern with a number of
positions by `A`. -/
structure Scheme.Reversal {σ τ κ ι : Type} (scheme : Scheme σ κ ι) (scheme' : Scheme τ κ ι)
    (net : Network) (d : Direction) (S : σ → τ → Prop) (A : Nat → κ → κ → Prop) : Prop where
  start : ∀ {s s'} (time : Time), S s s' → S (scheme.start time s) (scheme'.start (-time) s')
  seed : ∀ {s s'} (leg : Connector) (time : Time), S s s' →
    Concur S (scheme.seed leg time s) (scheme'.seed leg (-time) s')
  seedOnBoard : ∀ {s s'} (leg : Connector) (time : Time), S s s' →
    Concur S (scheme.seedOnBoard leg time s) (scheme'.seedOnBoard leg (-time) s')
  advance : ∀ {s s'} (round : Nat), S s s' →
    Concur (fun turned turned' => turned'.1 = turned.1 ∧ S turned.2 turned'.2)
      (scheme.advance round s) (scheme'.advance round s')
  reached_eq : ∀ {s s'}, S s s' → scheme'.reached s' = scheme.reached s
  reached_lt : ∀ {s s'}, S s s' → ∀ stop ∈ (scheme.reached s).toList, stop < net.stopCount
  ridden_eq : ∀ {s s'}, S s s' → scheme'.ridden s' = scheme.ridden s
  enter : ∀ {p t t'}, Timetable.Opposed p.length t t' →
    Concur (A p.length) (scheme.enter p t) (scheme'.enter p.reversed t')
  alight : ∀ {s s' length a a' position} (stop : StopId), position < length → A length a a' →
    S s s' → Concur S (scheme.alight a stop position s)
      (scheme'.alight a' stop (fromEnd length position) s')
  boardable : ∀ {s s'} (stop : StopId), S s s' →
    Concur (fun arrivals arrivals' => arrivals' = arrivals) (scheme.boardable s stop)
      (scheme'.boardable s' stop)
  board : ∀ {s s' length a a' position} (arrival : ι) (stop : StopId), position < length →
    A length a a' → S s s' → Concur (A length) (scheme.board s arrival stop position a)
      (scheme'.board s' arrival stop (fromEnd length position) a')
  walk : ∀ {s s'} (stop : StopId) (walks : List Walk), S s s' →
    Concur S (scheme.walk stop walks s) (scheme'.walk stop (walks.map Walk.reversed) s')
  finish : ∀ {s s'}, S s s' → Concur S (scheme.finish s) (scheme'.finish s')

def Course.reversed (course : Course) : Course :=
  { course with
    network := course.network.reversed
    direction := course.direction.opposite }

/-- Two searches between two iterations. -/
structure Progress.Concurs {σ τ : Type} (S : σ → τ → Prop) (net : Network) (progress : Progress σ)
    (progress' : Progress τ) : Prop where
  state : S progress.state progress'.state
  marks : progress.marks = .empty net.patternCount
  marks_reversed : progress'.marks = .empty net.reversed.patternCount
  rounds_eq : progress'.rounds = progress.rounds

namespace Scheme.Reversal

variable {σ τ κ ι : Type} {scheme : Scheme σ κ ι} {scheme' : Scheme τ κ ι} {course : Course}
  {S : σ → τ → Prop} {A : Nat → κ → κ → Prop} {s : σ} {s' : τ}
  (h : scheme.Reversal scheme' course.network course.direction S A)

include h

/-! ### Riding -/

theorem concur_visit {p : Pattern} (hflows : p.flows.size = p.length) {position : Nat}
    (hposition : position < p.length) {a a' : κ} (hs : S s s') (ha : A p.length a a') :
    Concur (fun current current' => S current.1 current'.1 ∧ A p.length current.2 current'.2)
      (visit scheme course p (s, a) position)
      (visit scheme' course.reversed p.reversed (s', a') (fromEnd p.length position)) := by
  simp only [visit, Course.reversed, Pattern.stopAt_reversed hposition,
    Direction.canAlight_reversed hflows hposition, Direction.canBoard_reversed hflows hposition]
  refine .bind_same fun stop _ => .bind_same fun alights _ => ?_
  have hboard : ∀ {s s'}, S s s' → Concur
      (fun current current' => S current.1 current'.1 ∧ A p.length current.2 current'.2)
      (do
        let boards ← course.direction.canBoard p position
        if boards && (scheme.reached s).contains stop then
          let arrivals ← scheme.boardable s stop
          let onBoard ← arrivals.foldlM
            (fun onBoard arrival => scheme.board s arrival stop position onBoard) a
          return (s, onBoard)
        else return (s, a))
      (do
        let boards ← course.direction.canBoard p position
        if boards && (scheme'.reached s').contains stop then
          let arrivals ← scheme'.boardable s' stop
          let onBoard ← arrivals.foldlM
            (fun onBoard arrival =>
              scheme'.board s' arrival stop (fromEnd p.length position) onBoard) a'
          return (s', onBoard)
        else return (s', a')) := by
    intro s s' hs
    rw [h.reached_eq hs]
    refine .bind_same fun boards _ => .ite (fun _ => ?_) fun _ => .values ⟨hs, ha⟩
    refine (h.boardable stop hs).bind ?_
    rintro arrivals _ rfl
    refine Concur.bind
      (.foldlM_same ha fun a a' arrival _ ha => h.board arrival stop hposition ha hs)
      fun a a' ha => .values ⟨hs, ha⟩
  cases alights with
  | true => exact (h.alight stop hposition ha hs).bind fun s s' hs => hboard hs
  | false => exact hboard hs

theorem concur_ridePattern (hnet : course.network.Sound) {start : PatternId × Nat}
    (hstart : start.2 < course.network.patternLength start.1) (hs : S s s') :
    Concur S (ridePattern scheme course s start)
      (ridePattern scheme' course.reversed s' (course.network.reverseVisit start)) := by
  cases hp : course.network.patterns[start.1]? with
  | none =>
    rw [Network.patternLength, hp] at hstart
    exact absurd hstart (Nat.not_lt_zero _)
  | some p =>
    obtain ⟨t, ht⟩ := hnet.exists_timetable hp
    have hp' : course.network.reversed.patterns[start.1]? = some p.reversed := by
      rw [Network.getElem?_patterns_reversed, hp]
      rfl
    have ht' : course.network.reversed.timetables[start.1]? =
        some (t.reversed.number start.1) := by
      rw [Network.getElem?_timetables_reversed, ht]
      rfl
    have hopposed := (hnet.timetable_sound hp ht).opposed start.1
    have hlength := Network.patternLength_eq hp
    rw [hlength] at hstart
    rw [ridePattern, ridePattern, Course.reversed, Network.reverseVisit, Network.pattern,
      Network.pattern, Network.timetable, Network.timetable, fetch_of_getElem? hp,
      fetch_of_getElem? ht, fetch_of_getElem? hp', fetch_of_getElem? ht']
    show Concur S (if t.size = 0 then _ else _) (if (t.reversed.number start.1).size = 0 then _
      else _)
    rw [hopposed.size_eq]
    refine .ite (fun _ => .values hs) fun _ => ?_
    refine (h.enter hopposed).bind fun a a' ha => ?_
    dsimp only
    rw [Pattern.length_reversed, hlength, Direction.positionsFrom_fromEnd hstart]
    refine (Concur.foldlM_map (S := fun current current' : _ × κ =>
      S current.1 current'.1 ∧ A p.length current.2 current'.2) ⟨hs, ha⟩ ?_).bind
        fun current current' hcurrent => .values hcurrent.1
    rintro ⟨s, a⟩ ⟨s', a'⟩ position hmem ⟨hs, ha⟩
    exact h.concur_visit (hnet.flows_size hp) ((Direction.mem_positionsFrom hstart).mp hmem).2 hs ha

/-- Both rounds ride the same patterns. -/
theorem concur_transitRound (hnet : course.network.Sound)
    (hvisits : course.network.patternsAt =
      Draft.patternsByStop course.network.stopCount course.network.patterns) (hs : S s s') :
    Concur (fun ridden ridden' => S ridden.1 ridden'.1 ∧
        ridden.2 = .empty course.network.patternCount ∧
        ridden'.2 = .empty course.network.reversed.patternCount)
      (transitRound scheme course s (.empty course.network.patternCount))
      (transitRound scheme' course.reversed s' (.empty course.network.reversed.patternCount)) := by
  rw [transitRound, transitRound, h.reached_eq hs]
  refine (ScanMarks.concur_markStops hnet hvisits course.direction (h.reached_lt hs)).bind ?_
  rintro marks marks' ⟨hplan, hinside, hclear, hclear'⟩
  rw [hplan]
  refine Concur.bind (.foldlM_map hs fun s s' start hmem hs =>
    h.concur_ridePattern hnet (hinside start hmem) hs) fun s s' hs => ?_
  exact .values ⟨hs, hclear, hclear'⟩

/-! ### Walking -/

/-- Both searches walk from the same stops. -/
theorem concur_walkRound (hs : S s s') :
    Concur S (walkRound scheme course s) (walkRound scheme' course.reversed s') := by
  rw [walkRound, walkRound, h.ridden_eq hs]
  refine .foldlM_same hs fun s s' stop _ hs => ?_
  dsimp only [Course.reversed]
  rw [Network.walks_reversed, bind_map_left]
  exact .bind_same fun walks _ => h.walk stop walks hs

/-! ### Rounds -/

theorem concur_roundsFrom (hnet : course.network.Sound)
    (hvisits : course.network.patternsAt =
      Draft.patternsByStop course.network.stopCount course.network.patterns) (time : Time)
    (remaining round : Nat) {progress : Progress σ} {progress' : Progress τ}
    (hprogress : progress.Concurs S course.network progress') :
    Concur (Progress.Concurs S course.network)
      (roundsFrom scheme course time remaining round progress)
      (roundsFrom scheme' course.reversed (-time) remaining round progress') := by
  induction remaining generalizing round progress progress' with
  | zero => exact .values hprogress
  | succ remaining ih =>
    obtain ⟨s, marks, rounds⟩ := progress
    obtain ⟨s', marks', rounds'⟩ := progress'
    obtain ⟨hs, rfl, rfl, rfl⟩ := hprogress
    dsimp only at hs ⊢
    rw [roundsFrom, roundsFrom]
    refine (h.advance round hs).bind ?_
    rintro ⟨more, s⟩ ⟨_, s'⟩ ⟨rfl, hs⟩
    dsimp only at hs ⊢
    refine .ite (fun _ => .values ⟨hs, rfl, rfl, rfl⟩) fun _ => ?_
    refine (h.concur_transitRound hnet hvisits hs).bind ?_
    rintro ⟨s, _⟩ ⟨s', _⟩ ⟨hs, rfl, rfl⟩
    dsimp only at hs ⊢
    have hrest : ∀ {s s'}, S s s' → Concur (Progress.Concurs S course.network)
        (do
          let state ← walkRound scheme course s
          let state ← scheme.finish state
          let next ← byte (round + 1)
          roundsFrom scheme course time remaining next
            ⟨state, .empty course.network.patternCount, max rounds' round⟩)
        (do
          let state ← walkRound scheme' course.reversed s'
          let state ← scheme'.finish state
          let next ← byte (round + 1)
          roundsFrom scheme' course.reversed (-time) remaining next
            ⟨state, .empty course.network.reversed.patternCount, max rounds' round⟩) := by
      intro s s' hs
      refine (h.concur_walkRound hs).bind fun s s' hs => ?_
      refine (h.finish hs).bind fun s s' hs => ?_
      exact .bind_same fun next _ => ih next ⟨hs, rfl, rfl, rfl⟩
    by_cases hfirst : round = 1
    · rw [if_pos hfirst, if_pos hfirst]
      exact Concur.bind (.foldlM_same hs fun s s' leg _ hs => h.seedOnBoard leg time hs)
        fun s s' hs => hrest hs
    · rw [if_neg hfirst, if_neg hfirst]
      exact hrest hs

/-- The runs of both searches concur, the one in reversed time starting at the opposite times. -/
theorem concur_run (hnet : course.network.Sound)
    (hvisits : course.network.patternsAt =
      Draft.patternsByStop course.network.stopCount course.network.patterns)
    {progress : Progress σ} {progress' : Progress τ}
    (hprogress : progress.Concurs S course.network progress') (times : List Time) :
    Concur (Progress.Concurs S course.network) (run scheme course .unlimited progress times)
      (run scheme' course.reversed .unlimited progress' (times.map fun time => -time)) := by
  refine .foldlM_map hprogress ?_
  rintro ⟨s, marks, rounds⟩ ⟨s', marks', rounds'⟩ time - ⟨hs, rfl, rfl, rfl⟩
  refine .bind_same fun _ _ => ?_
  refine Concur.bind (.foldlM_same (h.start time hs) fun s s' leg _ hs => h.seed leg time hs)
    fun s s' hs => ?_
  exact h.concur_roundsFrom hnet hvisits time course.maxRounds 1 ⟨hs, rfl, rfl, rfl⟩

end Scheme.Reversal

end JourneyPlanner
