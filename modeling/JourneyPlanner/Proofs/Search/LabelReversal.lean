import JourneyPlanner.Proofs.Search.Offers
import JourneyPlanner.Proofs.Search.Reversal

/-!
# The search for labels in reversed time

Two searches for labels, one in a direction and one in the opposite direction in reversed time, keep
labels at the same places, with the same costs and opposite times, as long as no rules apply.

* `Front.Pairs`: two fronts with related alternatives in the same order.
* `Labels.Opposed`, `Aboard.Opposed`: two states of a search, and what is on board in them.
* `LabelScene.reversed`: what a search needs to know in reversed time.
* `LabelScene.reversal`: every operation keeps states opposed.
-/

namespace JourneyPlanner

/-! ### Fronts -/

namespace Front

variable {α β κ κ' : Type} {R : α × κ → β × κ' → Prop} {dom : Dominance κ} {dom' : Dominance κ'}
  {front : Front α κ} {front' : Front β κ'} {x : α} {x' : β} {k : κ} {k' : κ'}

/-- Two fronts have related alternatives in the same order. -/
def Pairs (R : α × κ → β × κ' → Prop) (front : Front α κ) (front' : Front β κ') : Prop :=
  List.Forall₂ R front.entries front'.entries

theorem Pairs.empty : Pairs R (Front.empty : Front α κ) (Front.empty : Front β κ') := .nil

theorem Pairs.isEmpty_eq (h : Pairs R front front') : front'.isEmpty = front.isEmpty := by
  obtain ⟨entries⟩ := front
  obtain ⟨entries'⟩ := front'
  cases h <;> rfl

/-- What is covered by a front is covered by the other one. -/
theorem Pairs.covers_eq (h : Pairs R front front')
    (hdom : ∀ e e', R e e' → dom' e'.2 k' = dom e.2 k) :
    front'.covers dom' k' = front.covers dom k := by
  obtain ⟨entries⟩ := front
  obtain ⟨entries'⟩ := front'
  change List.Forall₂ R entries entries' at h
  change entries'.any _ = entries.any _
  induction h with
  | nil => rfl
  | cons he _ ih => rw [List.any_cons, List.any_cons, hdom _ _ he, ih]

/-- Related alternatives replace related ones, where both comparisons agree. -/
theorem Pairs.replace (h : Pairs R front front') (hx : R (x, k) (x', k'))
    (hdom : ∀ e e' f f', R e e' → R f f' → dom' e'.2 f'.2 = dom e.2 f.2) :
    Pairs R (front.replace dom x k) (front'.replace dom' x' k') := by
  refine List.rel_append (List.rel_filter ?_ h) (.cons hx .nil)
  intro e e' he
  have hsame : dom' k' e'.2 = dom k e.2 := hdom _ _ _ _ hx he
  show (!dom k e.2) = true ↔ (!dom' k' e'.2) = true
  rw [hsame]

/-- Related alternatives are both added or both left out, where both comparisons agree. -/
theorem Pairs.add (h : Pairs R front front') (hx : R (x, k) (x', k'))
    (hdom : ∀ e e' f f', R e e' → R f f' → dom' e'.2 f'.2 = dom e.2 f.2) :
    Pairs R (front.add dom x k) (front'.add dom' x' k') := by
  rw [Front.add, Front.add, h.covers_eq fun e e' he => hdom e e' _ _ he hx]
  split
  · exact h
  · exact h.replace hx hdom

/-- What agrees on related alternatives is listed in the same order. -/
theorem Pairs.map_eq (h : Pairs R front front') {γ : Type} {f : α × κ → γ} {g : β × κ' → γ}
    (hfg : ∀ e e', R e e' → g e' = f e) : front'.entries.map g = front.entries.map f := by
  obtain ⟨entries⟩ := front
  obtain ⟨entries'⟩ := front'
  change List.Forall₂ R entries entries' at h
  change entries'.map g = entries.map f
  induction h with
  | nil => rfl
  | cons he _ ih => rw [List.map_cons, List.map_cons, hfg _ _ he, ih]

end Front

/-! ### Criteria -/

def StopCriteria.reversed (k : StopCriteria) : StopCriteria := { k with time := -k.time }

def JourneyCriteria.reversed (k : JourneyCriteria) : JourneyCriteria := { k with time := -k.time }

namespace Direction

variable {d : Direction}

/-- Arrivals at a stop compare in reversed time as they do. -/
theorem dominatesAtStop_reversed (a b : StopCriteria) :
    d.opposite.dominatesAtStop a.reversed b.reversed = d.dominatesAtStop a b := by
  show (d.opposite.isBeforeOrEqual (-a.time) (-b.time) && _ && _) = _
  rw [isBeforeOrEqual_neg]
  rfl

/-- Journeys compare in reversed time as they do. -/
theorem dominatesJourney_reversed (a b : JourneyCriteria) :
    d.opposite.dominatesJourney a.reversed b.reversed = d.dominatesJourney a b := by
  show (d.opposite.isBeforeOrEqual (-a.time) (-b.time) && _ && _) = _
  rw [isBeforeOrEqual_neg]
  rfl

/-- Trips on board compare in reversed time as they do, with ranks counted from the last trip. -/
theorem dominatesAboard_fromEnd {count : Nat} {a b : AboardCriteria} (ha : a.rank < count)
    (hb : b.rank < count) :
    d.opposite.dominatesAboard { a with rank := fromEnd count a.rank }
      { b with rank := fromEnd count b.rank } = d.dominatesAboard a b := by
  rw [Bool.eq_iff_iff, dominatesAboard_iff, dominatesAboard_iff, rankNoLater_fromEnd ha hb]

end Direction

def Slacks.reversed (slacks : Slacks) : Slacks :=
  { slacks with board := slacks.alight, alight := slacks.board }

theorem Slacks.beforeBoarding_reversed (slacks : Slacks) (d : Direction) :
    slacks.reversed.beforeBoarding d.opposite = slacks.beforeBoarding d := by
  cases d <;> rfl

theorem Slacks.afterAlighting_reversed (slacks : Slacks) (d : Direction) :
    slacks.reversed.afterAlighting d.opposite = slacks.afterAlighting d := by
  cases d <;> rfl

/-- What a search needs to know in reversed time. -/
def LabelScene.reversed (c : LabelScene) : LabelScene :=
  { c with
    direction := c.direction.opposite
    slacks := c.slacks.reversed }

/-! ### States -/

/-- Two labels at opposite times that agree in all else but the way in which they came about. -/
structure Label.Opposed (l l' : Label) : Prop where
  stop_eq : l'.stop = l.stop
  round_eq : l'.round = l.round
  iteration_eq : l'.iteration = l.iteration
  time_eq : l'.time = -l.time
  cost_eq : l'.cost = l.cost
  onBoard_eq : l'.onBoard = l.onBoard

/-- Two states with opposed labels at the same places. -/
structure Labels.Opposed (stopCount : Nat) (s s' : Labels) : Prop where
  arena : List.Forall₂ Label.Opposed s.arena.toList s'.arena.toList
  front : ∀ round stop, Concur
    (Front.Pairs fun e e' => e'.1 = e.1 ∧ e'.2 = e.2.reversed) (s.front round stop)
    (s'.front round stop)
  finishes : Front.Pairs (fun e e' => e'.1 = e.1 ∧ e'.2 = e.2.reversed) s.finishes s'.finishes
  round_eq : s'.round = s.round
  iteration_eq : s'.iteration = s.iteration
  touched_eq : s'.touched = s.touched
  reached_eq : s'.reached = s.reached
  ridden_eq : s'.ridden = s.ridden
  touched_size : s.touched.marks.size = stopCount
  reached_size : s.reached.marks.size = stopCount

/-- Two trips on board of a timetable and its reversal. -/
structure Boarded.Opposed (length count : Nat) (e e' : Boarded × AboardCriteria) : Prop where
  trip : e.1.trip.Opposed length e'.1.trip
  previous_eq : e'.1.previous = e.1.previous
  time_eq : e'.1.time = -e.1.time
  cost_eq : e'.1.cost = e.1.cost
  rank_lt : e.2.rank < count
  criteria_eq : e'.2 = { e.2 with rank := fromEnd count e.2.rank }

/-- What is on board of a pattern, and of the pattern in reversed time, where no rules apply. -/
structure Aboard.Opposed (length : Nat) (a a' : Aboard) : Prop where
  timetable : a.timetable.Opposed length a'.timetable
  rules_eq : a.rules = none
  rules_reversed_eq : a'.rules = none
  front : Front.Pairs (Boarded.Opposed length a.timetable.size) a.front a'.front

theorem Labels.opposed_new (stopCount maxRounds : Nat) :
    Labels.Opposed stopCount (.new stopCount maxRounds) (.new stopCount maxRounds) where
  arena := .nil
  front round stop := by
    refine .refl fun front hfront => ?_
    have hempty : front = .empty := by
      obtain ⟨stops, hstops, hfront⟩ := bind_eq_ok.mp hfront
      rw [fetch_eq_ok, Labels.new, Array.getElem?_replicate] at hstops
      rw [fetch_eq_ok] at hfront
      split at hstops
      · obtain rfl := Option.some.inj hstops
        rw [Array.getElem?_replicate] at hfront
        split at hfront
        · exact (Option.some.inj hfront).symm
        · cases hfront
      · cases hstops
    subst hempty
    exact .empty
  finishes := .empty
  round_eq := rfl
  iteration_eq := rfl
  touched_eq := rfl
  reached_eq := rfl
  ridden_eq := rfl
  touched_size := IndexSet.size_empty
  reached_size := IndexSet.size_empty

/-! ### Reading the tables -/

/-- Tables whose elements are related one by one give related elements, or both have no such place.
-/
theorem concur_fetch {α β : Type} {R : α → β → Prop} {xs : Array α} {ys : Array β}
    (h : List.Forall₂ R xs.toList ys.toList) (i : Nat) : Concur R (fetch xs i) (fetch ys i) := by
  have hlength := h.length_eq
  simp only [Array.length_toList] at hlength
  rcases Nat.lt_or_ge i xs.size with hlt | hge
  · rw [fetch_of_getElem? (Array.getElem?_eq_getElem hlt),
      fetch_of_getElem? (Array.getElem?_eq_getElem (hlength ▸ hlt))]
    exact .values (List.Forall₂.get h (by simpa using hlt) (by simpa using hlength ▸ hlt))
  · simp only [fetch, Array.getElem?_eq_none hge, Array.getElem?_eq_none (hlength ▸ hge)]
    exact .fault _

/-- The front of a round at a stop after one more label. -/
theorem Labels.front_register {s : Labels} {d : Direction} {label : Label} (round : Nat)
    (stop : StopId) : (s.register d label).front round stop =
      if s.round = round ∧ label.stop = stop then
        (fun front => front.replace d.dominatesAtStop s.arena.size label.criteria) <$>
          s.front round stop
      else s.front round stop := by
  have hmodify : ∀ {α : Type} (table : Array α) (i j : Nat) (f : α → α),
      fetch (table.modify i f) j = if i = j then f <$> fetch table j else fetch table j := by
    intro α table i j f
    by_cases hij : i = j
    · subst hij
      simp only [fetch, Array.getElem?_modify, if_true]
      cases table[i]? <;> rfl
    · simp only [fetch, Array.getElem?_modify, if_neg hij]
  simp only [Labels.front, Labels.register, hmodify]
  by_cases hround : s.round = round
  · simp only [hround, true_and, if_true]
    cases fetch s.fronts round with
    | error fault => split <;> rfl
    | ok stops =>
      show fetch (stops.modify _ _) stop = _
      rw [hmodify]
      rfl
  · simp only [hround, false_and, if_false]

namespace Labels.Opposed

variable {stopCount : Nat} {s s' : Labels} (h : s.Opposed stopCount s')

include h

/-- The labels at one place are opposed. -/
theorem concur_label (id : LabelId) : Concur Label.Opposed (s.label id) (s'.label id) :=
  concur_fetch h.arena id

theorem size_eq : s'.arena.size = s.arena.size := by
  simpa using h.arena.length_eq.symm

/-- The labels of a round and the current iteration at a stop are opposed. -/
theorem concur_current (round : Nat) (stop : StopId) :
    Concur (List.Forall₂ fun arrival arrival' => arrival'.1 = arrival.1 ∧
        Label.Opposed arrival.2 arrival'.2)
      (s.current round stop) (s'.current round stop) := by
  refine (h.front round stop).bind fun front front' hfront => ?_
  rw [show front'.elements = front.elements from hfront.map_eq fun _ _ he => he.1]
  refine (Concur.mapM (R := fun arrival arrival' => arrival'.1 = arrival.1 ∧
      Label.Opposed arrival.2 arrival'.2) fun id _ =>
    (h.concur_label id).bind fun l l' hl => .values ⟨rfl, hl⟩).bind fun labels labels' hlabels => ?_
  refine .values (List.rel_filter ?_ hlabels)
  rintro ⟨id, l⟩ ⟨_, l'⟩ ⟨-, hl⟩
  dsimp only
  rw [hl.iteration_eq, h.iteration_eq]

end Labels.Opposed

namespace LabelScene

variable {c : LabelScene} {s s' : Labels} {stop : StopId} {time : Time} {cost : Cost}

/-! ### Arriving -/

/-- An arrival is covered in reversed time if and only if it is covered. -/
theorem isCovered_reversed (h : s.Opposed c.stopCount s') (k : StopCriteria) :
    Concur (fun covered covered' => covered' = covered) (c.isCovered s stop k)
      (c.reversed.isCovered s' stop k.reversed) := by
  unfold isCovered
  rw [h.round_eq]
  refine .anyM fun round _ => (h.front round stop).bind fun front front' hfront => .values ?_
  exact hfront.covers_eq fun e e' he => by
    rw [he.2]
    exact Direction.dominatesAtStop_reversed _ _

/-- An arrival is hopeless in reversed time if and only if it is hopeless, the bounds being the
same. -/
theorem isHopeless_reversed (h : s.Opposed c.stopCount s') :
    Concur (fun hopeless hopeless' => hopeless' = hopeless) (c.isHopeless s stop time cost)
      (c.reversed.isHopeless s' stop (-time) cost) := by
  have hbounds : c.reversed.bounds = c.bounds := rfl
  unfold isHopeless
  rw [hbounds]
  cases c.bounds with
  | none => exact .values rfl
  | some bounds =>
    dsimp only
    cases bounds.at? stop with
    | none => exact .values rfl
    | some b =>
      dsimp only
      rw [h.finishes.isEmpty_eq, h.round_eq]
      refine .ite (fun _ => .values rfl) fun _ => ?_
      refine Direction.concur_plus.bind ?_
      rintro ending _ rfl
      refine .bind_same fun cost _ => .values ?_
      exact h.finishes.covers_eq fun e e' he => by
        rw [he.2]
        exact Direction.dominatesJourney_reversed _
          ⟨ending, min (s.round + b.transfers) 255 - 1, cost⟩

/-- Opposed labels leave opposed states opposed. -/
theorem register_reversed (h : s.Opposed c.stopCount s') {l l' : Label} (hl : l.Opposed l') :
    (s.register c.direction l).Opposed c.stopCount (s'.register c.reversed.direction l') where
  arena := by
    simp only [Labels.register, Array.toList_push]
    exact List.rel_append h.arena (.cons hl .nil)
  front round stop := by
    rw [Labels.front_register, Labels.front_register, h.round_eq, hl.stop_eq, h.size_eq]
    refine .ite (fun _ => ?_) fun _ => h.front round stop
    refine (h.front round stop).map fun front front' hfront => hfront.replace ⟨rfl, ?_⟩ ?_
    · simp only [Label.criteria, StopCriteria.reversed, hl.time_eq, hl.cost_eq, hl.onBoard_eq]
    · rintro e e' f f' ⟨-, he⟩ ⟨-, hf⟩
      rw [he, hf]
      exact Direction.dominatesAtStop_reversed _ _
  finishes := h.finishes
  round_eq := h.round_eq
  iteration_eq := h.iteration_eq
  touched_eq := by simp only [Labels.register, h.touched_eq, hl.stop_eq]
  reached_eq := h.reached_eq
  ridden_eq := by simp only [Labels.register, h.ridden_eq, hl.stop_eq, hl.onBoard_eq]
  touched_size := by simpa [Labels.register] using h.touched_size
  reached_size := h.reached_size

/-- An arrival is registered in both searches or in neither, however it came about: only being on
board matters to the comparison. -/
theorem arrive_reversed (h : s.Opposed c.stopCount s') {origin origin' : Origin}
    (horigin : origin'.onBoard = origin.onBoard) :
    Concur (Labels.Opposed c.stopCount) (c.arrive stop time cost origin s)
      (c.reversed.arrive stop (-time) cost origin' s') := by
  unfold arrive
  refine .ite (fun _ => .values h) fun _ => ?_
  rw [horigin]
  refine (isCovered_reversed h ⟨time, cost, origin.onBoard⟩).bind ?_
  rintro covered _ rfl
  refine .ite (fun _ => .values h) fun _ => ?_
  refine (isHopeless_reversed h).bind ?_
  rintro hopeless _ rfl
  refine .ite (fun _ => .values h) fun _ => .values ?_
  exact register_reversed h ⟨rfl, h.round_eq, h.iteration_eq, rfl, rfl, horigin⟩

/-- A leg of the request is taken at the opposite time. -/
theorem seed_reversed (h : s.Opposed c.stopCount s') (leg : Connector) :
    Concur (Labels.Opposed c.stopCount) (c.seed leg time s) (c.reversed.seed leg (-time) s') := by
  refine Direction.concur_plus.bind ?_
  rintro arrival _ rfl
  exact arrive_reversed h rfl

/-! ### Boarding -/

variable {length position rank : Nat} {l l' : Label} {a a' : Aboard} {id : LabelId}

/-- A trip can be boarded from the opposite time on, the slacks of both sides being exchanged. -/
theorem earliest_reversed (hl : l.Opposed l') : c.reversed.earliest l' = -c.earliest l := by
  simp only [earliest, reversed, Slacks.beforeBoarding_reversed, hl.time_eq, hl.round_eq,
    Direction.shift_neg]
  rfl

/-- The traveller waits since the opposite time. -/
theorem waitSince_reversed (hl : l.Opposed l') (time : Time) :
    c.reversed.waitSince l' (-time) .regular none = -c.waitSince l time .regular none := by
  simp only [waitSince, reversed, Slacks.beforeBoarding_reversed, hl.round_eq, hl.time_eq,
    Direction.shift_neg, Option.getD_none, ite_self]
  split <;> rfl

/-- A trip is boarded at the opposite time, at the same cost. -/
theorem boarded_reversed (hl : l.Opposed l') {trip trip' : Trip} (htrip : trip.Opposed length trip')
    (hposition : position < length) {count : Nat} (hrank : rank < count) :
    Boarded.Opposed length count
      (c.boarded id l stop position trip .regular none,
        c.aboardCriteria rank (c.boarded id l stop position trip .regular none))
      (c.reversed.boarded id l' stop (fromEnd length position) trip' .regular none,
        c.reversed.aboardCriteria (fromEnd count rank)
          (c.reversed.boarded id l' stop (fromEnd length position) trip' .regular none)) := by
  have htime := htrip.boardingAt c.direction hposition
  have hcost : (c.reversed.boarded id l' stop (fromEnd length position) trip' .regular none).cost =
      (c.boarded id l stop position trip .regular none).cost := by
    have hwait : -c.direction.boardingAt trip position -
        -c.waitSince l (c.direction.boardingAt trip position) .regular none =
        -(c.direction.boardingAt trip position -
          c.waitSince l (c.direction.boardingAt trip position) .regular none) := by ring
    show l'.cost + c.tariff.boardingPrice (l'.round == 0)
      (c.direction.opposite.boardingAt trip' (fromEnd length position) - c.reversed.waitSince l'
        (c.direction.opposite.boardingAt trip' (fromEnd length position)) .regular none) stop trip'
          .regular = _
    rw [htime, waitSince_reversed hl, hwait, hl.cost_eq, hl.round_eq]
    simp only [boarded, Tariff.boardingPrice, Int.natAbs_neg]
  refine ⟨htrip, rfl, htime, hcost, hrank, ?_⟩
  have hrelative : c.direction.opposite.shift 0
      (c.direction.opposite.boardingAt trip' (fromEnd length position)) =
      c.direction.shift 0 (c.direction.boardingAt trip position) := by
    rw [htime, Direction.shift_zero_neg]
  simp only [aboardCriteria, hcost]
  show AboardCriteria.mk _ (_ - c.tariff.transitFactor trip'.reluctance *
    c.direction.opposite.shift 0 (c.direction.opposite.boardingAt trip' (fromEnd length position)))
      (c.tariff.transitFactor trip'.reluctance) = _
  rw [hrelative, htrip.reluctance_eq]
  rfl

/-- Both searches take the same trip: the first one that runs is met first in either direction. -/
theorem boardRegular_reversed (ha : a.Opposed length a') (hl : l.Opposed l')
    (hposition : position < length) :
    Concur (Aboard.Opposed length) (c.boardRegular id l stop position a)
      (c.reversed.boardRegular id l' stop (fromEnd length position) a') := by
  have hearliest : Concur (fun time time' => time' = -time) (c.earliestBoarding l)
      (c.reversed.earliestBoarding l') := by
    refine .of_yields yields_earliestBoarding yields_earliestBoarding ?_
    rintro _ _ rfl rfl
    exact earliest_reversed hl
  refine hearliest.bind ?_
  rintro earliest _ rfl
  have hruns : ∀ trip trip' : Trip, trip'.service = trip.service →
      c.reversed.runs trip' = c.runs trip := by
    intro trip trip' hservice
    rw [runs, runs, hservice]
    rfl
  refine (ha.timetable.bestTrip c.runs hruns hposition).bind ?_
  rintro _ _ (⟨⟨htrip, hrank, hopposed⟩⟩ | _)
  · rename_i found found'
    obtain ⟨rank, trip⟩ := found
    obtain ⟨_, trip'⟩ := found'
    obtain rfl : _ = fromEnd a.timetable.size rank := hrank
    have hlt : rank < a.timetable.size := (Array.getElem?_eq_some_iff.mp htrip).1
    refine .of_yields (yields_boardTrip hopposed.fits hposition)
      (yields_boardTrip hopposed.fits_reversed (fromEnd_lt hposition)) ?_
    rintro _ _ rfl rfl
    refine ⟨ha.timetable, ha.rules_eq, ha.rules_reversed_eq, ?_⟩
    refine ha.front.add (boarded_reversed hl hopposed hposition hlt) ?_
    intro e e' f f' he hf
    rw [he.criteria_eq, hf.criteria_eq]
    exact Direction.dominatesAboard_fromEnd he.rank_lt hf.rank_lt
  · exact .values ha

/-- Without rules every boarding is a regular one. -/
theorem board_reversed (ha : a.Opposed length a') (h : s.Opposed c.stopCount s')
    (hposition : position < length) :
    Concur (Aboard.Opposed length) (c.board s id stop position a)
      (c.reversed.board s' id stop (fromEnd length position) a') := by
  refine (h.concur_label id).bind fun l l' hl => ?_
  rw [boardByRule, boardByRule, ha.rules_eq, ha.rules_reversed_eq]
  exact boardRegular_reversed ha hl hposition

/-- Nothing is on board before a pattern is ridden, and no rules are read. -/
theorem enter_reversed (hrules : c.rules = none) {p : Pattern} {t t' : Timetable}
    (ht : t.Opposed p.length t') :
    Concur (Aboard.Opposed p.length) (c.enter p t) (c.reversed.enter p.reversed t') := by
  have hrules' : c.reversed.rules = none := hrules
  rw [enter, enter, hrules, hrules']
  exact .values ⟨ht, rfl, rfl, .empty⟩

/-! ### Riding and walking -/

/-- A trip is left at the opposite time, at the same cost. -/
theorem alightTrip_reversed (h : s.Opposed c.stopCount s') {count : Nat}
    {e e' : Boarded × AboardCriteria} (he : Boarded.Opposed length count e e')
    (hposition : position < length) :
    Concur (Labels.Opposed c.stopCount) (c.alightTrip stop position s e.1)
      (c.reversed.alightTrip stop (fromEnd length position) s' e'.1) := by
  have hslack : c.reversed.slacks.afterAlighting c.reversed.direction =
      c.slacks.afterAlighting c.direction := c.slacks.afterAlighting_reversed c.direction
  have htime : c.reversed.direction.alightTime e'.1.trip (fromEnd length position) =
      .ok (-c.direction.alightingAt e.1.trip position) := by
    rw [he.trip.fits_reversed.alightTime (fromEnd_lt hposition)]
    exact congrArg Except.ok (he.trip.alightingAt c.direction hposition)
  rw [alightTrip, alightTrip, hslack, htime, he.trip.fits.alightTime hposition]
  refine Direction.concur_plus.bind ?_
  rintro time _ rfl
  have helapsed : Concur (fun span span' => span' = span)
      (c.direction.elapsed e.1.time (c.direction.alightingAt e.1.trip position))
      (c.reversed.direction.elapsed e'.1.time (-c.direction.alightingAt e.1.trip position)) := by
    refine .of_yields Direction.yields_elapsed Direction.yields_elapsed ?_
    rintro _ _ rfl rfl
    rw [he.time_eq]
    exact Direction.gap_neg
  refine helapsed.bind ?_
  rintro _ span rfl
  have hcost : Concur (fun cost cost' => cost' = cost)
      (c.tariff.ridingCost e.1.cost (c.slacks.afterAlighting c.direction) span e.1.trip stop)
      (c.tariff.ridingCost e'.1.cost (c.slacks.afterAlighting c.direction) span e'.1.trip
        stop) := by
    refine .of_yields Tariff.yields_ridingCost Tariff.yields_ridingCost ?_
    rintro _ _ rfl rfl
    rw [he.cost_eq, Tariff.ridingPrice, Tariff.ridingPrice, he.trip.reluctance_eq]
  refine hcost.bind ?_
  rintro _ cost rfl
  exact arrive_reversed h rfl

/-- All trips on board are left one after the other in the same order. -/
theorem alight_reversed (h : s.Opposed c.stopCount s') (ha : a.Opposed length a')
    (hposition : position < length) :
    Concur (Labels.Opposed c.stopCount) (c.alight a stop position s)
      (c.reversed.alight a' stop (fromEnd length position) s') := by
  have helements : List.Forall₂ (fun e e' => ∃ k k',
      Boarded.Opposed length a.timetable.size (e, k) (e', k')) a.front.elements
      a'.front.elements := by
    simp only [Front.elements, List.forall₂_map_left_iff, List.forall₂_map_right_iff]
    exact ha.front.imp fun e e' he => ⟨e.2, e'.2, he⟩
  refine .foldlM h helements ?_
  rintro s s' e e' ⟨k, k', he⟩ hs
  exact alightTrip_reversed hs he hposition

/-- The walks of a stop are made the other way round, to the same stops. -/
theorem walkFrom_reversed (h : s.Opposed c.stopCount s') (hl : l.Opposed l')
    (walks : List Walk) :
    Concur (Labels.Opposed c.stopCount) (c.walkFrom stop walks s (id, l))
      (c.reversed.walkFrom stop (walks.map Walk.reversed) s' (id, l')) := by
  refine .foldlM_map h fun s s' walk _ hs => ?_
  have htarget : c.reversed.direction.walkTarget walk.reversed = c.direction.walkTarget walk :=
    Direction.walkTarget_reversed walk
  dsimp only
  rw [htarget, hl.time_eq, hl.cost_eq]
  refine .ite (fun _ => .values hs) fun _ => ?_
  refine Direction.concur_plus.bind ?_
  rintro time _ rfl
  exact .bind_same fun price _ => .bind_same fun cost _ => arrive_reversed hs rfl

/-- The arrivals on board of the round are the same, and so are the walks after them. -/
theorem walk_reversed (h : s.Opposed c.stopCount s') (walks : List Walk) :
    Concur (Labels.Opposed c.stopCount) (c.walk stop walks s)
      (c.reversed.walk stop (walks.map Walk.reversed) s') := by
  rw [walk, walk, h.round_eq]
  refine (h.concur_current s.round stop).bind fun arrivals arrivals' harrivals => ?_
  have hriders := List.rel_filter (p := fun arrival : LabelId × Label => arrival.2.onBoard)
    (q := fun arrival : LabelId × Label => arrival.2.onBoard)
    (fun arrival arrival' harrival => by
      show arrival.2.onBoard = true ↔ arrival'.2.onBoard = true
      rw [harrival.2.onBoard_eq]) harrivals
  refine .foldlM h hriders ?_
  rintro s s' ⟨id, l⟩ ⟨_, l'⟩ ⟨rfl, hl⟩ hs
  exact walkFrom_reversed hs hl walks

/-! ### Finishing -/

/-- Two fronts at the destination with opposite times. -/
abbrev FinishesOpposed (finishes finishes' : Front Finish JourneyCriteria) : Prop :=
  finishes.Pairs (fun e e' => e'.1 = e.1 ∧ e'.2 = e.2.reversed) finishes'

/-- A leg of the request ends a journey at the opposite time. -/
theorem finishBy_reversed {finishes finishes' : Front Finish JourneyCriteria}
    (hl : l.Opposed l') (h : FinishesOpposed finishes finishes') (leg : Connector) :
    Concur FinishesOpposed (c.finishBy (id, l) finishes leg)
      (c.reversed.finishBy (id, l') finishes' leg) := by
  unfold finishBy
  dsimp only
  rw [hl.onBoard_eq, hl.round_eq, hl.time_eq, hl.cost_eq]
  refine .ite (fun _ => .values h) fun _ => ?_
  refine Direction.concur_plus.bind ?_
  rintro time _ rfl
  refine .bind_same fun cost _ => .values (h.add ⟨rfl, rfl⟩ ?_)
  rintro e e' f f' ⟨-, he⟩ ⟨-, hf⟩
  rw [he, hf]
  exact Direction.dominatesJourney_reversed _ _

/-- The finishes after the arrivals of a round are opposed. -/
theorem finish_reversed (h : s.Opposed c.stopCount s') :
    Concur (Labels.Opposed c.stopCount) (c.finish s) (c.reversed.finish s') := by
  rw [finish, finish, h.touched_eq]
  have hfinishes : Concur FinishesOpposed (s.touched.toList.foldlM (c.finishAt s) s.finishes)
      (s.touched.toList.foldlM (c.reversed.finishAt s') s'.finishes) := by
    refine .foldlM_same h.finishes fun finishes finishes' stop _ hfinishes => ?_
    rw [finishAt, finishAt, h.round_eq]
    refine .ite (fun _ => .values hfinishes) fun _ => ?_
    refine (h.concur_current s.round stop).bind fun arrivals arrivals' harrivals => ?_
    refine .foldlM hfinishes harrivals ?_
    rintro finishes finishes' ⟨id, l⟩ ⟨_, l'⟩ ⟨rfl, hl⟩ hfinishes
    exact .foldlM_same hfinishes fun finishes finishes' leg _ hfinishes =>
      finishBy_reversed hl hfinishes leg
  exact hfinishes.bind fun finishes finishes' hfinishes =>
    .values { h with finishes := hfinishes, front := h.front, touched_eq := rfl }

/-- Both searches turn to a round, or find nothing left to do. -/
theorem advance_reversed (h : s.Opposed c.stopCount s') (round : Nat) :
    Concur (fun turned turned' => turned'.1 = turned.1 ∧
        turned.2.Opposed c.stopCount turned'.2)
      (c.advance round s) (c.reversed.advance round s') := by
  have hturn : ∀ {s s' : Labels}, s.Opposed c.stopCount s' →
      Concur (fun turned turned' : Bool × Labels => turned'.1 = turned.1 ∧
          turned.2.Opposed c.stopCount turned'.2)
        (pure (!s.touched.isEmpty, { s with
          round
          reached := s.touched
          touched := s.touched.clear
          ridden := s.ridden.clear }))
        (pure (!s'.touched.isEmpty, { s' with
          round
          reached := s'.touched
          touched := s'.touched.clear
          ridden := s'.ridden.clear })) := by
    intro s s' h
    refine .values ⟨by rw [h.touched_eq], ?_⟩
    exact {
      arena := h.arena
      front := h.front
      finishes := h.finishes
      round_eq := rfl
      iteration_eq := h.iteration_eq
      touched_eq := congrArg IndexSet.clear h.touched_eq
      reached_eq := h.touched_eq
      ridden_eq := congrArg IndexSet.clear h.ridden_eq
      touched_size := by simpa using h.touched_size
      reached_size := h.touched_size }
  unfold advance
  split
  · exact (finish_reversed h).bind fun s s' hs => hturn hs
  · exact hturn h

/-- The next iteration starts at the opposite time with the same labels. -/
theorem start_reversed (h : s.Opposed c.stopCount s') (time : Time) :
    (Labels.start time s).Opposed c.stopCount (Labels.start (-time) s') where
  arena := h.arena
  front := h.front
  finishes := h.finishes
  round_eq := rfl
  iteration_eq := congrArg (· + 1) h.iteration_eq
  touched_eq := congrArg IndexSet.clear h.touched_eq
  reached_eq := congrArg IndexSet.clear h.reached_eq
  ridden_eq := congrArg IndexSet.clear h.ridden_eq
  touched_size := by simpa [Labels.start] using h.touched_size
  reached_size := by simpa [Labels.start] using h.reached_size

/-! ### The search -/

/-- Every operation of a search without rules concurs with that of the search in reversed time. -/
theorem reversal {net : Network} (hstops : c.stopCount = net.stopCount) (hrules : c.rules = none) :
    (labelScheme c).Reversal (labelScheme c.reversed) net c.direction
      (Labels.Opposed c.stopCount) Aboard.Opposed where
  start time h := start_reversed h time
  seed leg _ h := seed_reversed h leg
  seedOnBoard leg _ h := seed_reversed h leg
  advance round h := advance_reversed h round
  reached_eq h := h.reached_eq
  reached_lt := by
    intro s s' h stop hstop
    have hlt := IndexSet.lt_of_contains (IndexSet.mem_toList.mp hstop)
    rwa [← hstops, ← h.reached_size]
  ridden_eq h := h.ridden_eq
  enter ht := enter_reversed hrules ht
  alight _ hposition ha h := alight_reversed h ha hposition
  boardable := by
    intro s s' stop h
    dsimp only [labelScheme]
    rw [h.round_eq]
    refine (h.concur_current (s.round - 1) stop).bind fun arrivals arrivals' harrivals => .values ?_
    induction harrivals with
    | nil => rfl
    | cons harrival _ ih => rw [List.map_cons, List.map_cons, harrival.1, ih]
  board _ _ hposition ha h := board_reversed ha h hposition
  walk _ walks h := walk_reversed h walks
  finish h := finish_reversed h

end LabelScene

end JourneyPlanner
