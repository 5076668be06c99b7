import JourneyPlanner.Proofs.Search.Attempts
import JourneyPlanner.Proofs.Tariff
import JourneyPlanner.Proofs.Transfer.Boarding

/-!
# What a search offers

The search for labels offers arrivals while it computes them. Here both are taken apart: which trip
is boarded after a label, and which label is offered when it is left, or after a walk, does not
depend on what has been offered since the round began.

* `LabelScene.choose`: the trip boarded after a label, and its criteria.
* `LabelScene.seeded`, `LabelScene.alighted`, `LabelScene.walked`: the labels that are offered.
* `LabelScene.yields_board`, `LabelScene.yields_alightTrip`, `LabelScene.yields_walkFrom`: the
  search does just that.
-/

namespace JourneyPlanner

namespace LabelScene

variable (c : LabelScene)

/-! ### Boarding -/

/-- When a trip can be boarded after a label, no rule being known. -/
def earliest (label : Label) : Time :=
  c.direction.shift label.time
    (c.slacks.beforeBoarding c.direction + if label.round = 0 then 0 else c.slacks.transfer)

/-- Since when a traveller waits for a trip. -/
def waitSince (label : Label) (boardTime : Time) (constraint : Constraint)
    (rideEnd : Option Time) : Time :=
  if label.round = 0 then c.direction.shift boardTime (-c.slacks.beforeBoarding c.direction)
  else if constraint.isFacilitated then rideEnd.getD label.time else label.time

/-- A trip on board after a label. -/
def boarded (id : LabelId) (label : Label) (stop : StopId) (position : Nat) (trip : Trip)
    (constraint : Constraint) (rideEnd : Option Time) : Boarded :=
  let time := c.direction.boardingAt trip position
  { previous := id
    trip
    stop
    position
    time
    cost := label.cost + c.tariff.boardingPrice (label.round == 0)
      (time - c.waitSince label time constraint rideEnd) stop trip constraint
    constraint }

/-- What is compared of a trip on board. -/
def aboardCriteria (rank : Nat) (e : Boarded) : AboardCriteria :=
  let factor := c.tariff.transitFactor e.trip.reluctance
  ⟨rank, e.cost - factor * c.direction.shift 0 e.time, factor⟩

/-- The change after a label that a boarding at a position means. -/
def changeAt (label : Label) (ride : SearchRide) (rideStop : StopId) (position : Nat) : Change where
  source := ride.trip
  sourceStop := rideStop
  sourcePosition := ride.alightPosition
  arrival := ride.alightTime
  walk := match label.origin with
    | .walk _ duration _ => duration
    | _ => 0
  earliest := c.earliest label
  position

/-- What the rules say about a boarding after a label, with the end of the ride before, when they
settle it. -/
def ruled (s : Labels) (t : Timetable) (rules : Option RuleSearch) (label : Label)
    (position : Nat) : Checked (Option (Boarding × Time)) := do
  match rules with
  | none => return none
  | some rules =>
    if !rules.rules.existAt position then return none
    match ← s.lastRide label with
    | none => return none
    | some (ride, rideStop) =>
      match ← rules.find t (c.changeAt label ride rideStop position) c.runs with
      | none => return none
      | some found => return some (found, ride.alightTime)

/-- The trip that is boarded after a label, under the rules about the change or else regularly. -/
def choose (s : Labels) (t : Timetable) (rules : Option RuleSearch) (id : LabelId)
    (label : Label) (stop : StopId) (position : Nat) :
    Checked (Option (Boarded × AboardCriteria)) := do
  match ← c.ruled s t rules label position with
  | some (found, rideEnd) =>
    if found.constraint.isNotAllowed then return none
    let e := c.boarded id label stop position found.trip found.constraint (some rideEnd)
    return some (e, c.aboardCriteria found.rank e)
  | none =>
    match ← t.bestTrip c.direction c.runs (c.earliest label) position with
    | none => return none
    | some (rank, trip) =>
      let e := c.boarded id label stop position trip .regular none
      return some (e, c.aboardCriteria rank e)

/-- What is on board after one more trip may have been boarded. -/
def take (aboard : Aboard) : Option (Boarded × AboardCriteria) → Aboard
  | none => aboard
  | some e => { aboard with front := aboard.front.add c.direction.dominatesAboard e.1 e.2 }

variable {c} {s : Labels} {maxRounds length : Nat} {id : LabelId} {label : Label} {stop : StopId}
  {position rank : Nat} {trip : Trip} {constraint : Constraint} {rideEnd : Option Time}
  {aboard : Aboard}

theorem yields_earliestBoarding : Yields (c.earliestBoarding label) (· = c.earliest label) := by
  unfold earliestBoarding earliest
  split
  · refine Direction.yields_plus.mono ?_
    rintro _ - ⟨rfl, -⟩
    rw [Int.add_zero]
  · refine (yields_word _).bind ?_
    rintro _ - ⟨rfl, -⟩
    exact Direction.yields_plus.mono fun _ _ h => h.1

theorem yields_waitStart {boardTime : Time} :
    Yields (c.waitStart label boardTime constraint rideEnd)
      (· = c.waitSince label boardTime constraint rideEnd) := by
  unfold waitStart waitSince
  split
  · exact Direction.yields_minus
  · cases rideEnd <;> simp

theorem yields_boardTrip (htrip : trip.Fits length) (hposition : position < length) :
    Yields (c.boardTrip id label stop position (rank, trip) constraint rideEnd aboard)
      fun aboard' =>
      aboard' = c.take aboard
        (some (c.boarded id label stop position trip constraint rideEnd,
          c.aboardCriteria rank (c.boarded id label stop position trip constraint rideEnd))) := by
  rw [boardTrip, htrip.boardTime hposition]
  refine yields_waitStart.bind ?_
  rintro _ - rfl
  refine Tariff.yields_boardingCost.bind ?_
  rintro _ - rfl
  refine (yields_word _).bind ?_
  rintro _ - ⟨rfl, -⟩
  refine Direction.yields_plus.bind ?_
  rintro _ - ⟨rfl, -⟩
  refine (yields_word _).bind ?_
  rintro _ - ⟨rfl, -⟩
  refine (yields_word _).bind ?_
  rintro _ - ⟨rfl, -⟩
  rfl

theorem yields_lastRide (hs : s.Sound c.direction c.stopCount maxRounds)
    (hlabel : s.arena[id]? = some label) : Yields (s.lastRide label) fun _ => True := by
  unfold Labels.lastRide
  cases horigin : label.origin with
  | access | ride => trivial
  | walk source duration previous =>
    have hlt := hs.previous_lt hlabel (by rw [horigin]; rfl)
    have := (Array.getElem?_eq_some_iff.mp hlabel).1
    refine (Labels.yields_label (hlt.trans this)).bind fun before _ _ => ?_
    cases before.origin <;> trivial

/-- A regular boarding takes the trip that is chosen without rules. -/
theorem yields_boardRegular (ht : aboard.timetable.Sound length) (hposition : position < length) :
    Yields (c.boardRegular id label stop position aboard) fun aboard' =>
      ∃ chosen, c.choose s aboard.timetable none id label stop position = .ok chosen ∧
        aboard' = c.take aboard chosen := by
  refine yields_earliestBoarding.bind ?_
  rintro _ - rfl
  refine (ht.yields_bestTrip hposition _ _ _).bind ?_
  rintro found hfound ⟨-, htrip⟩
  simp only [choose, ruled, pure_bind]
  rw [hfound]
  cases found with
  | none => exact ⟨none, rfl, rfl⟩
  | some ranked =>
    obtain ⟨rank, trip⟩ := ranked
    have hfits := ht.fits trip (Array.mem_of_getElem? (htrip rank trip rfl))
    exact (yields_boardTrip hfits hposition).mono fun _ _ h => ⟨_, rfl, h⟩

/-- A boarding under the rules takes the trip that they settle, unless they forbid it. -/
theorem yields_boardByRule (hs : s.Sound c.direction c.stopCount maxRounds)
    (hlabel : s.arena[id]? = some label) (ht : aboard.timetable.Sound length)
    (hposition : position < length) :
    Yields (c.boardByRule s id label stop position aboard) fun result =>
      ∃ ruled, c.ruled s aboard.timetable aboard.rules label position = .ok ruled ∧
        (ruled = none → result = none) ∧
        ∀ found rideEnd, ruled = some (found, rideEnd) → result = some
          (if found.constraint.isNotAllowed then aboard
          else
            let e := c.boarded id label stop position found.trip found.constraint (some rideEnd)
            c.take aboard (some (e, c.aboardCriteria found.rank e))) := by
  unfold boardByRule ruled
  cases hrules : aboard.rules with
  | none => exact ⟨none, rfl, fun _ => rfl, by simp⟩
  | some rules =>
    dsimp only
    refine Yields.ite (fun hnone => ⟨none, by rw [if_pos hnone]; rfl, fun _ => rfl, by simp⟩)
      fun hsome => ?_
    simp only [if_neg hsome]
    refine (yields_lastRide hs hlabel).bind fun last hlast _ => ?_
    rw [hlast]
    cases last with
    | none => exact ⟨none, rfl, fun _ => rfl, by simp⟩
    | some last =>
      refine yields_earliestBoarding.bind ?_
      rintro _ - rfl
      refine (RuleSearch.yields_find ht hposition).bind fun found hfound hsettles => ?_
      have hfind : rules.find aboard.timetable (c.changeAt label last.1 last.2 position) c.runs =
          .ok found := hfound
      show Yields _ fun result => ∃ ruled, (rules.find aboard.timetable
        (c.changeAt label last.1 last.2 position) c.runs >>= _) = .ok ruled ∧ _
      rw [hfind]
      cases found with
      | none => exact ⟨none, rfl, fun _ => rfl, by simp⟩
      | some found =>
        refine Yields.ite (fun hforbidden => ⟨_, rfl, by simp, ?_⟩) fun hallowed => ?_
        · rintro _ _ ⟨⟩
          rw [if_pos hforbidden]
        · have hfits := ht.fits found.trip (Array.mem_of_getElem? (hsettles found rfl).trip)
          refine (yields_boardTrip hfits hposition).bind ?_
          rintro _ - rfl
          refine ⟨_, rfl, by simp, ?_⟩
          rintro _ _ ⟨⟩
          rw [if_neg hallowed]

/-- Boarding takes the trip that is chosen. -/
theorem yields_board (hs : s.Sound c.direction c.stopCount maxRounds)
    (hlabel : s.arena[id]? = some label) (ht : aboard.timetable.Sound length)
    (hposition : position < length) :
    Yields (c.board s id stop position aboard) fun aboard' =>
      ∃ chosen, c.choose s aboard.timetable aboard.rules id label stop position = .ok chosen ∧
        aboard' = c.take aboard chosen := by
  refine (Labels.yields_label (Array.getElem?_eq_some_iff.mp hlabel).1).bind
    fun found _ hfound => ?_
  obtain rfl := Option.some.inj (hlabel.symm.trans hfound)
  refine (yields_boardByRule hs hlabel ht hposition).bind ?_
  rintro result - ⟨ruled, hruled, hnone, hsome⟩
  unfold choose
  rw [hruled]
  cases ruled with
  | none =>
    rw [hnone rfl]
    exact yields_boardRegular (s := s) ht hposition
  | some ruled =>
    rw [hsome ruled.1 ruled.2 rfl]
    show ∃ chosen, (if ruled.1.constraint.isNotAllowed = true then _ else _) = _ ∧ _
    split
    · exact ⟨none, rfl, rfl⟩
    · exact ⟨_, rfl, rfl⟩

/-! ### Arriving -/

variable (c)

/-- The label of an arrival by a leg of the request. -/
def seeded (leg : Connector) (start : Time) (round iteration : Nat) : Label :=
  { stop := leg.stop
    round
    iteration
    time := c.direction.shift start leg.duration
    cost := leg.cost
    origin := .access leg }

def rideOf (position : Nat) (e : Boarded) : SearchRide :=
  { trip := e.trip
    boardStop := e.stop
    boardPosition := e.position
    alightPosition := position
    boardTime := e.time
    alightTime := c.direction.alightingAt e.trip position
    constraint := e.constraint }

/-- The label of an arrival by a trip that was on board. -/
def alighted (stop : StopId) (position round iteration : Nat) (e : Boarded) : Label :=
  let slack := c.slacks.afterAlighting c.direction
  let alightTime := c.direction.alightingAt e.trip position
  { stop
    round
    iteration
    time := c.direction.shift alightTime slack
    cost := e.cost + c.tariff.ridingPrice slack (c.direction.gap e.time alightTime) e.trip stop
    origin := .ride (c.rideOf position e) e.previous }

/-- The label of an arrival by a walk after another label. -/
def walked (stop : StopId) (walk : Walk) (id : LabelId) (label : Label) : Label :=
  { stop := c.direction.walkTarget walk
    round := label.round
    iteration := label.iteration
    time := c.direction.shift label.time walk.duration
    cost := label.cost + c.tariff.walk * walk.duration
    origin := .walk stop walk.duration id }

variable {c}

theorem yields_seed (hs : s.Sound c.direction c.stopCount maxRounds) {leg : Connector}
    {start : Time} :
    Yields (c.seed leg start s)
      (c.Tried maxRounds (· = c.seeded leg start s.round s.iteration) s) := by
  refine Direction.yields_plus.bind ?_
  rintro _ - ⟨rfl, -⟩
  have hnext : s.IsNext (c.seeded leg start s.round s.iteration) := ⟨rfl, rfl, by rintro _ ⟨⟩⟩
  exact (hs.yields_arrive hnext).mono fun _ _ h => .one hs hnext h

theorem yields_alightTrip (hs : s.Sound c.direction c.stopCount maxRounds) {e : Boarded}
    (htrip : e.trip.Fits length) (hposition : position < length)
    (hprevious : e.previous < s.arena.size) :
    Yields (c.alightTrip stop position s e)
      (c.Tried maxRounds (· = c.alighted stop position s.round s.iteration e) s) := by
  rw [alightTrip, htrip.alightTime hposition]
  refine Direction.yields_plus.bind ?_
  rintro _ - ⟨rfl, -⟩
  refine Direction.yields_elapsed.bind ?_
  rintro _ - rfl
  refine Tariff.yields_ridingCost.bind ?_
  rintro _ - rfl
  have hnext : s.IsNext (c.alighted stop position s.round s.iteration e) :=
    ⟨rfl, rfl, by rintro _ ⟨⟩; exact hprevious⟩
  exact (hs.yields_arrive hnext).mono fun _ _ h => .one hs hnext h

theorem yields_walkFrom (hs : s.Sound c.direction c.stopCount maxRounds) {walks : List Walk}
    (hlabel : s.arena[id]? = some label) (hround : label.round = s.round)
    (hiteration : label.iteration = s.iteration) :
    Yields (c.walkFrom stop walks s (id, label))
      (c.Tried maxRounds (fun l => ∃ walk ∈ walks, c.direction.walkTarget walk ≠ stop ∧
        l = c.walked stop walk id label) s) := by
  refine Tried.foldlM hs fun walk _ s₁ _ htried => ?_
  refine Yields.ite (fun hstays => .none htried.sound (by simp [hstays])) fun hleaves => ?_
  refine Direction.yields_plus.bind ?_
  rintro _ - ⟨rfl, -⟩
  refine Tariff.yields_walkCost.bind ?_
  rintro _ - rfl
  refine (yields_word _).bind ?_
  rintro _ - ⟨rfl, -⟩
  have hnext : s₁.IsNext (c.walked stop walk id label) := {
    round := by rw [htried.round_eq]; exact hround
    iteration := by rw [htried.iteration_eq]; exact hiteration
    previous := by
      rintro _ ⟨⟩
      exact (Array.getElem?_eq_some_iff.mp hlabel).1.trans_le htried.size_le }
  refine (htried.sound.yields_arrive hnext).mono fun _ _ h => ?_
  exact (Tried.one htried.sound hnext h).congr fun l => by simp [hleaves]

end LabelScene

end JourneyPlanner
