import JourneyPlanner.Refinement.Choice
import JourneyPlanner.Proofs.Itinerary.Times

/-!
# The ends of refined itineraries

The choice of transfers moves neither end of an itinerary. Its last ride is left where it was, and
the tails that are put in front of it are over when it is; its first ride is boarded where it was,
at the end of the same walks.

* `Tail.EndsAt`: a tail starts with a given trip and is over at a given time.
* `RefinementScene.extend_endsAt`: so is every tail with one more ride.
* `RefinementScene.extend_eq_ok`, `RefinementScene.refine_eq_ok`: where tails and refined
  itineraries come from.
* `RefinementScene.refine_ends`: a refined itinerary starts and ends when it did before.
* `RefinementScene.exists_of_mem_refineAll`: refined itineraries come from those given.
-/

namespace JourneyPlanner

open Itinerary (timeAfter timeAfter_ride)

/-- The parts of an itinerary up to its first ride are walks. -/
theorem Itinerary.legs_eq_of_rides {it : Itinerary} {first : Ride} {rides : List Ride}
    (h : it.rides = first :: rides) :
    ∃ rest, it.legs = it.legs.takeWhile (fun leg => !leg.isRide) ++ .ride first :: rest := by
  have hsplit := List.takeWhile_append_dropWhile (p := fun leg : Leg => !leg.isRide) (l := it.legs)
  have hnone : (it.legs.takeWhile fun leg => !leg.isRide).filterMap Leg.ride? = [] :=
    rides_of_walks isRide_takeWhile
  rcases dropWhile_eq_nil_or_ride it.legs with hafter | ⟨r, rest, hafter⟩
  · rw [hafter, List.append_nil] at hsplit
    rw [Itinerary.rides, ← hsplit, hnone] at h
    cases h
  · rw [hafter] at hsplit
    rw [Itinerary.rides, ← hsplit, List.filterMap_append, hnone] at h
    obtain rfl : r = first := (List.cons.inj h).1
    exact ⟨rest, hsplit.symm⟩

theorem Itinerary.mem_rides {it : Itinerary} {r : Ride} : r ∈ it.rides ↔ .ride r ∈ it.legs := by
  rw [Itinerary.rides, List.mem_filterMap]
  constructor
  · rintro ⟨leg, hleg, hride⟩
    cases leg with
    | ride r' =>
      cases hride
      exact hleg
    | walk stroll => cases hride
  · intro hr
    exact ⟨.ride r, hr, rfl⟩

theorem ScoredItinerary.itinerary_eq {penalty : Option WaitPenalty} {it : Itinerary}
    {scored : ScoredItinerary} (h : ScoredItinerary.new penalty it = .ok scored) :
    scored.itinerary = it := by
  obtain ⟨score, -, h⟩ := bind_eq_ok.mp h
  cases h
  rfl

namespace Tail

/-- A tail starts with a ride on a trip, and is over at a given time with a given leg after it. -/
structure EndsAt (slack : Span) (ending : Time) (egress : Connector) (trip : Trip) (tail : Tail) :
    Prop where
  head : ∃ head rest, tail.legs = .ride head :: rest ∧ head.trip = trip
  ending : ∀ time, timeAfter slack time tail.legs = ending
  egress : tail.egress = egress

variable {pricing : Pricing} {slack : Span} {time ending : Time} {egress : Connector} {trip : Trip}
  {tail tail' : Tail} {legs : List Leg} {ride : Ride} {connection : Connection} {whole : Itinerary}
  {scored : ScoredItinerary}

theorem ofLegs_eq_ok (h : ofLegs pricing legs egress = .ok tail) :
    tail.legs = legs ∧ tail.egress = egress := by
  obtain ⟨state, -, h⟩ := bind_eq_ok.mp h
  obtain ⟨generalized, -, h⟩ := bind_eq_ok.mp h
  obtain ⟨score, -, h⟩ := bind_eq_ok.mp h
  cases h
  exact ⟨rfl, rfl⟩

theorem fromLastRide?_eq_none (h : fromLastRide? legs = none) :
    ∀ leg ∈ legs, leg.isRide = false := by
  induction legs with
  | nil => simp
  | cons leg rest ih =>
    rw [fromLastRide?] at h
    cases hrest : fromLastRide? rest with
    | some found =>
      rw [hrest] at h
      cases h
    | none =>
      rw [hrest] at h
      cases leg with
      | walk stroll => exact List.forall_mem_cons.mpr ⟨rfl, ih hrest⟩
      | ride r => cases h

/-- The parts from the last ride on start with a ride, are walks after it, and are the last ones. -/
theorem fromLastRide?_eq_some {parts : List Leg} (h : fromLastRide? legs = some parts) :
    ∃ before last after, parts = .ride last :: after ∧ legs = before ++ parts ∧
      ∀ leg ∈ after, leg.isRide = false := by
  induction legs with
  | nil => cases h
  | cons leg rest ih =>
    rw [fromLastRide?] at h
    cases hrest : fromLastRide? rest with
    | some found =>
      rw [hrest] at h
      cases h
      obtain ⟨before, last, after, hparts, rfl, hwalks⟩ := ih hrest
      exact ⟨leg :: before, last, after, hparts, rfl, hwalks⟩
    | none =>
      rw [hrest] at h
      cases leg with
      | walk stroll => cases h
      | ride r =>
        cases h
        exact ⟨[], r, rest, rfl, rfl, fromLastRide?_eq_none hrest⟩

/-- The tail of the last ride is over when the whole itinerary is. -/
theorem ofItinerary?_endsAt (h : ofItinerary? pricing whole = .ok (some tail)) :
    ∃ trip, tail.EndsAt slack (timeAfter slack time whole.legs) whole.egress.leg trip := by
  rw [ofItinerary?] at h
  cases hparts : fromLastRide? whole.legs with
  | none =>
    rw [hparts] at h
    cases h
  | some parts =>
    rw [hparts] at h
    obtain ⟨before, last, after, rfl, hlegs, -⟩ := fromLastRide?_eq_some hparts
    obtain ⟨htail, hegress⟩ := ofLegs_eq_ok (some_map_eq_ok h)
    refine ⟨last.trip, ⟨last, after, htail, rfl⟩, fun time' => ?_, hegress⟩
    rw [htail, hlegs]
    exact (timeAfter_ride time').symm

/-- A ride put in front of a tail does not change when the tail is over. -/
theorem EndsAt.prepend (h : tail.EndsAt slack ending egress trip)
    (hprepend : tail.prepend pricing ride connection = .ok tail') :
    tail'.EndsAt slack ending egress ride.trip := by
  obtain ⟨hlegs, hegress⟩ := ofLegs_eq_ok hprepend
  obtain ⟨head, rest, hhead, -⟩ := h.head
  have hending := h.ending
  rw [prependLegs, hhead] at hlegs
  rw [hhead] at hending
  refine ⟨⟨_, _, hlegs, rfl⟩, fun time => ?_, hegress.trans h.egress⟩
  rw [hlegs]
  exact (timeAfter_ride time).trans (hending time)

/-- An itinerary that is completed starts and ends when the whole one does. -/
theorem EndsAt.complete {departure : Time} {first : Ride} {rides : List Ride}
    (htimes : whole.Times pricing.slacks departure) (hrides : whole.rides = first :: rides)
    (h : tail.EndsAt pricing.slacks.alight (timeAfter pricing.slacks.alight
      (whole.startTime + whole.access.leg.duration) whole.legs) whole.egress.leg first.trip)
    (hcomplete : tail.complete pricing whole = .ok scored) :
    scored.itinerary.startTime = whole.startTime ∧ scored.itinerary.endTime = whole.endTime := by
  obtain ⟨rest, hwhole⟩ := Itinerary.legs_eq_of_rides hrides
  obtain ⟨head, after, hhead, htrip⟩ := h.head
  have hending := h.ending
  rw [hhead] at hending
  obtain ⟨it, hnew, hscored⟩ := bind_eq_ok.mp hcomplete
  rw [ScoredItinerary.itinerary_eq hscored]
  rw [hrides, hhead, List.head?_cons] at hnew
  dsimp only [boardHead] at hnew
  obtain ⟨haccess, hegress, huntimed, -, hstart, hend⟩ := Itinerary.new_eq_ok hnew
  -- both are ready for the first ride at the same time
  have hboards : ∀ {r : Ride} {legs : List Leg}, r.departs = first.departs →
      Itinerary.readyBy pricing.slacks.board
        (whole.legs.takeWhile (fun leg => !leg.isRide) ++ .ride r :: legs) =
      some (first.departs - pricing.slacks.board -
        Itinerary.spans (whole.legs.takeWhile fun leg => !leg.isRide)) := by
    intro r legs hr
    rw [Itinerary.readyBy_ride Itinerary.isRide_takeWhile, hr]
  have hstarts := htimes.start
  rw [hwhole, hboards rfl, Option.getD_some] at hstarts
  rw [Itinerary.readyBy_congr huntimed, haccess,
    hboards (by rw [Ride.departs, htrip]; rfl), Option.getD_some] at hstart
  have hstart : it.startTime = whole.startTime := by linarith
  constructor
  · exact hstart
  · rw [hend, htimes.ending, hegress, h.egress, haccess, hstart, ← hending 0,
      Itinerary.timeAfter_congr huntimed]
    exact congrArg (· + _) (timeAfter_ride 0)

end Tail

namespace RefinementScene

variable {α : Type} {c : RefinementScene} {pricing : Pricing} {slack : Span} {ending : Time}
  {egress : Connector} {tails tails' : List Tail} {ride : Ride} {connections : List Connection}
  {it : Itinerary} {scored : ScoredItinerary}

theorem keepLeast_sublist {cost : α → Cost} {xs : List α} : (keepLeast cost xs).Sublist xs := by
  unfold keepLeast
  split
  · exact List.filter_sublist
  · exact List.Sublist.refl xs

/-- The best candidate is one of the candidates. -/
theorem mem_of_best? {score : α → TransferScore} {xs : List α} {x : α}
    (h : c.best? score xs = some x) : x ∈ xs := by
  have hpriority : (keepLeast (fun x => (score x).priority) xs).Sublist xs := keepLeast_sublist
  have hkept : (c.keepBest score xs).Sublist xs := by
    unfold keepBest
    refine keepLeast_sublist.trans ?_
    split
    · exact keepLeast_sublist.trans hpriority
    · exact hpriority
  exact hkept.subset (List.mem_of_head? h)

/-- With one more ride, there is a tail for every connection that can be followed by a tail, and the
best of those follows it. -/
theorem extend_eq_ok (h : c.extend pricing tails (ride, connections) = .ok tails') :
    (∀ tail ∈ tails', ∃ connection ∈ connections, ∃ head,
      c.best? Tail.score (tails.filter (·.canBoardAt connection.target.position)) = some head ∧
        head.prepend pricing ride connection = .ok tail) ∧
    ∀ connection ∈ connections, ∀ head,
      c.best? Tail.score (tails.filter (·.canBoardAt connection.target.position)) = some head →
        ∃ tail ∈ tails', head.prepend pricing ride connection = .ok tail := by
  obtain ⟨found, hfound, h⟩ := bind_eq_ok.mp h
  cases h
  constructor
  · intro tail htail
    obtain ⟨_, hmem, rfl⟩ := List.mem_filterMap.mp htail
    obtain ⟨connection, hconnection, hprepend⟩ := exists_of_mem_mapM hfound hmem
    split at hprepend
    case h_1 head hbest => exact ⟨connection, hconnection, head, hbest, some_map_eq_ok hprepend⟩
    case h_2 => cases hprepend
  · intro connection hconnection head hbest
    obtain ⟨result, hresult, hprepend⟩ := exists_mem_of_mapM hfound hconnection
    rw [hbest] at hprepend
    obtain ⟨tail, hprepended, rfl⟩ := map_eq_ok.mp hprepend
    exact ⟨tail, List.mem_filterMap.mpr ⟨_, hresult, rfl⟩, hprepended⟩

/-- With one more ride, all tails are over when they were before. -/
theorem extend_endsAt (htails : ∀ tail ∈ tails, ∃ trip, tail.EndsAt slack ending egress trip)
    (h : c.extend pricing tails (ride, connections) = .ok tails') :
    ∀ tail ∈ tails', tail.EndsAt slack ending egress ride.trip := by
  intro tail htail
  obtain ⟨connection, -, head, hbest, hprepend⟩ := (extend_eq_ok h).1 tail htail
  obtain ⟨trip, hhead⟩ := htails head (List.mem_of_mem_filter (mem_of_best? hbest))
  exact hhead.prepend hprepend

/-- However many rides are put in front of them, all tails are over when they were before. -/
theorem foldrM_endsAt {steps : List (Ride × List Connection)}
    (htails : ∀ tail ∈ tails, ∃ trip, tail.EndsAt slack ending egress trip)
    (h : steps.foldrM (fun step tails => c.extend pricing tails step) tails = .ok tails') :
    ∀ tail ∈ tails', ∃ trip, tail.EndsAt slack ending egress trip := by
  induction steps generalizing tails' with
  | nil =>
    cases h
    exact htails
  | cons step steps ih =>
    rw [List.foldrM_cons] at h
    obtain ⟨between, hbetween, h⟩ := bind_eq_ok.mp h
    exact fun tail htail => ⟨_, extend_endsAt (ih hbetween) h tail htail⟩

/-- What the costs of the tails of an itinerary depend on. -/
def pricingOf (c : RefinementScene) (it : Itinerary) : Pricing :=
  ⟨c.tariff, c.slacks, c.penalty it.rides.length⟩

/-- The tails that are left for an itinerary with several rides, once all rides are put in front of
the last one. -/
structure HasTails (c : RefinementScene) (it : Itinerary) (alternatives : List (List Connection))
    (last : Tail) (tails : List Tail) : Prop where
  several : 2 ≤ it.rides.length
  found : c.connections.alternatives it.rides = .ok alternatives
  starts : Tail.ofItinerary? (c.pricingOf it) it = .ok (some last)
  extended : (it.rides.zip alternatives).foldrM
    (fun step tails => c.extend (c.pricingOf it) tails step) [last] = .ok tails

/-- A refined itinerary is the best one of those that its tails are completed to. It is kept if
there are no tails, or if none is completed. -/
theorem refine_eq_ok (h : c.refine it = .ok scored) :
    (ScoredItinerary.new (c.penalty it.rides.length) it = .ok scored ∧
      (c.options.moveTransfers = false ∨ it.rides.length < 2 ∨
        (∃ alternatives, c.connections.alternatives it.rides = .ok alternatives ∧
          [] ∈ alternatives) ∨
        Tail.ofItinerary? (c.pricingOf it) it = .ok none)) ∨
    ∃ alternatives last tails completed, c.HasTails it alternatives last tails ∧
      tails.mapM (Tail.complete (c.pricingOf it) it) = .ok completed ∧
      (c.best? ScoredItinerary.score completed = some scored ∨
        c.best? ScoredItinerary.score completed = none ∧
          ScoredItinerary.new (c.penalty it.rides.length) it = .ok scored) := by
  unfold refine at h
  dsimp only at h
  split at h
  case isTrue hchoice =>
    rw [Bool.or_eq_true, Bool.not_eq_true', decide_eq_true_iff] at hchoice
    exact .inl ⟨h, hchoice.elim .inl fun hfew => .inr (.inl hfew)⟩
  case isFalse hchoice =>
    rw [Bool.or_eq_true, not_or, decide_eq_true_iff, Nat.not_lt] at hchoice
    obtain ⟨alternatives, halternatives, h⟩ := bind_eq_ok.mp h
    split at h
    case isTrue hempty =>
      obtain ⟨connections, hmem, hnil⟩ := List.any_eq_true.mp hempty
      rw [List.isEmpty_iff.mp hnil] at hmem
      exact .inl ⟨h, .inr (.inr (.inl ⟨alternatives, halternatives, hmem⟩))⟩
    case isFalse =>
      obtain ⟨last, hlast, h⟩ := bind_eq_ok.mp h
      cases last with
      | none => exact .inl ⟨h, .inr (.inr (.inr hlast))⟩
      | some last =>
        obtain ⟨tails, htails, h⟩ := bind_eq_ok.mp h
        obtain ⟨completed, hcompleted, h⟩ := bind_eq_ok.mp h
        rw [List.foldlM_reverse] at htails
        refine .inr ⟨alternatives, last, tails, completed,
          ⟨hchoice.2, halternatives, hlast, htails⟩, hcompleted, ?_⟩
        split at h
        case h_1 best hbest =>
          cases h
          exact .inl hbest
        case h_2 hbest => exact .inr ⟨hbest, h⟩

/-- With two rides or more, the last ride put in front is the first of the itinerary. -/
theorem HasTails.endsAt {time : Time} {alternatives : List (List Connection)} {last : Tail}
    (h : c.HasTails it alternatives last tails) : ∃ first rest, it.rides = first :: rest ∧
      ∀ tail ∈ tails, tail.EndsAt slack (timeAfter slack time it.legs) it.egress.leg first.trip := by
  obtain ⟨hseveral, halternatives, hlast, htails⟩ := h
  cases hrides : it.rides with
  | nil => simp [hrides] at hseveral
  | cons first rides =>
    cases rides with
    | nil => simp [hrides] at hseveral
    | cons next rest =>
      refine ⟨first, next :: rest, rfl, ?_⟩
      rw [hrides] at htails halternatives
      obtain ⟨found, -, halternatives⟩ := bind_eq_ok.mp halternatives
      obtain ⟨others, -, halternatives⟩ := bind_eq_ok.mp halternatives
      cases halternatives
      rw [List.zip_cons_cons, List.foldrM_cons] at htails
      obtain ⟨between, hbetween, htails⟩ := bind_eq_ok.mp htails
      apply extend_endsAt (foldrM_endsAt _ hbetween) htails
      exact List.forall_mem_singleton.mpr (Tail.ofItinerary?_endsAt hlast)

/-- The choice of transfers moves neither end of an itinerary. -/
theorem refine_ends {departure : Time} (htimes : it.Times c.slacks departure)
    (h : c.refine it = .ok scored) :
    scored.itinerary.startTime = it.startTime ∧ scored.itinerary.endTime = it.endTime := by
  have hsame : ∀ {penalty : Option WaitPenalty}, ScoredItinerary.new penalty it = .ok scored →
      scored.itinerary.startTime = it.startTime ∧ scored.itinerary.endTime = it.endTime := by
    intro penalty hnew
    rw [ScoredItinerary.itinerary_eq hnew]
    exact ⟨rfl, rfl⟩
  rcases refine_eq_ok h with ⟨hkept, -⟩ |
    ⟨alternatives, last, tails, completed, htails, hcompleted, hbest | ⟨-, hkept⟩⟩
  · exact hsame hkept
  · obtain ⟨tail, htail, hcomplete⟩ := exists_of_mem_mapM hcompleted (mem_of_best? hbest)
    obtain ⟨first, rest, hrides, hends⟩ := htails.endsAt
    exact (hends tail htail).complete htimes hrides hcomplete
  · exact hsame hkept

/-- The elements that are left once those with a known text are left out. -/
theorem mem_of_mem_distinctBy {known : List String} {labelled : List (α × String)} {x : α}
    (h : x ∈ distinctBy known labelled) : x ∈ labelled.map (·.1) := by
  fun_induction distinctBy known labelled with
  | case1 => cases h
  | case2 known x text rest hknown ih => exact List.mem_cons_of_mem _ (ih h)
  | case3 known x text rest hnew ih =>
    rcases List.mem_cons.mp h with rfl | h
    · exact List.mem_cons_self
    · exact List.mem_cons_of_mem _ (ih h)

/-- Every refined itinerary comes from one that was given. -/
theorem exists_of_mem_refineAll {deadline : Deadline} {its : List Itinerary}
    {results : List ScoredItinerary} (h : c.refineAll deadline its = .ok results)
    (hscored : scored ∈ results) : ∃ it ∈ its, c.refine it = .ok scored := by
  obtain ⟨refined, hrefined, h⟩ := bind_eq_ok.mp h
  obtain ⟨labelled, hlabelled, h⟩ := bind_eq_ok.mp h
  cases h
  obtain ⟨pair, hpair, rfl⟩ := List.mem_map.mp (mem_of_mem_distinctBy hscored)
  obtain ⟨scored, hmem, hlabel⟩ := exists_of_mem_mapM hlabelled hpair
  obtain ⟨text, -, hlabel⟩ := bind_eq_ok.mp hlabel
  cases hlabel
  obtain ⟨⟨it, place⟩, hplace, hrefine⟩ := exists_of_mem_mapM hrefined hmem
  obtain ⟨_, -, hrefine⟩ := bind_eq_ok.mp hrefine
  exact ⟨it, List.fst_mem_of_mem_zipIdx hplace, hrefine⟩

end RefinementScene

end JourneyPlanner
