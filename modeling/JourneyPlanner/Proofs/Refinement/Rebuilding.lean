import JourneyPlanner.Proofs.Refinement.Feasibility
import JourneyPlanner.Proofs.Refinement.Optimum

/-!
# Rebuilding itineraries

The choice of transfers takes an itinerary apart down to its last ride and puts the rides in front
of it one by one, each with a connection from it. With the connections of the itinerary itself this
gives back the itinerary, to the second and to the cost: an itinerary does not depend on when its
walks were, and the costs of tails are those of itineraries. With any other connections, what the
way to the first ride adds to the cost of the tail stays the same.

* `Itinerary.new_congr`: what an itinerary depends on.
* `Itinerary.changes`: the connections of an itinerary.
* `Itinerary.rebuild_changes`: with them it is rebuilt.
* `Itinerary.reassemble`: an itinerary put together from tails.
* `reassemble_changes`: what this makes of an itinerary.
-/

namespace JourneyPlanner

open Itinerary (AllTimed allTimed_ride allTimed_append)
open RefinementScene (tailOf tail_of_ofItinerary? prepend_tailOf complete_tailOf score_of_rebuild)

namespace Itinerary

variable {tariff : Tariff} {slacks : Slacks} {slack : Span} {legs others : List Leg}
  {time departure departure' : Time} {access egress : Connector} {r : Ride}

/-! ### What an itinerary depends on -/

theorem walksBefore_untimed : walksBefore time (legs.map Leg.untimed) = walksBefore time legs := by
  induction legs with
  | nil => rfl
  | cons leg rest ih =>
    rw [List.map_cons]
    cases leg with
    | ride r => simp only [Leg.untimed, walksBefore, ih]
    | walk stroll =>
      simp only [Leg.untimed, walksBefore, ih]
      rfl

theorem legsAfter_untimed :
    legsAfter slack time (legs.map Leg.untimed) = legsAfter slack time legs := by
  induction legs generalizing time with
  | nil => rfl
  | cons leg rest ih =>
    rw [List.map_cons]
    cases leg with
    | ride r => simp only [Leg.untimed, legsAfter, ih]
    | walk stroll =>
      simp only [Leg.untimed, legsAfter, ih]
      rfl

/-- Building an itinerary gives all walks new times. -/
theorem new_untimed : Itinerary.new access (legs.map Leg.untimed) egress slacks tariff departure =
    Itinerary.new access legs egress slacks tariff departure := by
  have hwalks : (fun leg : Leg => !leg.isRide) ∘ Leg.untimed = fun leg => !leg.isRide :=
    funext fun leg => by cases leg <;> rfl
  have hride : ∀ r rest, (Leg.ride r :: rest).map Leg.untimed = .ride r :: rest.map Leg.untimed :=
    fun _ _ => rfl
  rw [Itinerary.new, Itinerary.new, List.takeWhile_map, List.dropWhile_map, hwalks]
  rcases dropWhile_eq_nil_or_ride legs with hafter | ⟨r, rest, hafter⟩
  · simp only [hafter, List.map_nil, legsAfter_untimed]
  · simp only [hafter, hride]
    simp only [← hride, walksBefore_untimed, legsAfter_untimed]

/-- An itinerary with a ride depends neither on when its walks were nor on the departure. -/
theorem new_congr (h : others.map Leg.untimed = legs.map Leg.untimed) (hride : .ride r ∈ legs) :
    Itinerary.new access others egress slacks tariff departure' =
      Itinerary.new access legs egress slacks tariff departure := by
  rw [← new_untimed, h, new_untimed, Itinerary.new, Itinerary.new]
  rcases dropWhile_eq_nil_or_ride legs with hafter | ⟨first, rest, hafter⟩
  · have hwalk := List.dropWhile_eq_nil_iff.mp hafter _ hride
    simp [Leg.isRide] at hwalk
  · rw [hafter]

end Itinerary

/-! ### The connections of an itinerary -/

/-- The connections among some parts, once a ride was left and a walk made, if there was one. -/
def changesAfter (ride : Ride) (walk : Option Walk) : List Leg → List Connection
  | [] => []
  | .walk stroll :: rest =>
    changesAfter ride (some ⟨stroll.source, stroll.target, stroll.duration⟩) rest
  | .ride next :: rest =>
    ⟨ride.leaving, next.boarding, walk, next.constraint⟩ :: changesAfter next none rest

/-- The connections of an itinerary: where a ride is left and the next one boarded, the walk between
and what is known about the change. -/
def Itinerary.changes (it : Itinerary) : List Connection :=
  match it.legs.dropWhile fun leg => !leg.isRide with
  | .ride first :: rest => changesAfter first none rest
  | _ => []

/-- No two walks follow each other between rides. -/
def SingleWalks (legs : List Leg) : Prop :=
  ∀ before first between second after,
    legs = before ++ .ride first :: (between ++ .ride second :: after) →
    (∀ leg ∈ between, leg.isRide = false) → between.length ≤ 1

section

variable {legs before between : List Leg} {ride next r : Ride} {rides : List Ride}

theorem SingleWalks.of_append (h : SingleWalks (before ++ legs)) : SingleWalks legs := by
  rintro before' first between second after rfl hwalks
  exact h (before ++ before') first between second after (by simp) hwalks

/-- Parts of which one of any two is a ride have single walks. -/
theorem SingleWalks.of_isChain
    (h : legs.IsChain fun leg leg' => leg.isRide = true ∨ leg'.isRide = true) :
    SingleWalks legs := by
  rintro before first between second after rfl hwalks
  match between with
  | [] => exact Nat.zero_le 1
  | [leg] => exact le_rfl
  | leg :: leg' :: rest =>
    have hchain := (List.isChain_cons.mp (List.isChain_append.mp h).2.1).2
    have hnext := (List.isChain_cons_cons.mp hchain).1
    rw [hwalks leg (by simp), hwalks leg' (by simp)] at hnext
    simp at hnext

theorem walk_of_ride?_eq_none {leg : Leg} : leg.ride? = none ↔ leg.isRide = false := by
  cases leg <;> simp [Leg.ride?, Leg.isRide]

theorem ride_of_ride?_eq_some {leg : Leg} (h : leg.ride? = some r) : leg = .ride r := by
  cases leg with
  | ride r' => exact congrArg Leg.ride (Option.some.inj h)
  | walk stroll => cases h

theorem rtakeWhile_ride : (before ++ .ride r :: legs).rtakeWhile (fun leg => !leg.isRide) =
    legs.rtakeWhile fun leg => !leg.isRide := by
  have hstop : (Leg.ride r :: before.reverse).takeWhile (fun leg => !leg.isRide) = [] := rfl
  rw [List.rtakeWhile, List.rtakeWhile, List.reverse_append, List.reverse_cons, List.append_assoc,
    List.singleton_append, List.takeWhile_append, hstop, List.append_nil]
  split
  case isTrue hall => rw [(List.takeWhile_prefix _).eq_of_length hall]
  case isFalse => rfl

/-- The walk of a connection has no times yet. -/
theorem Connection.untimed_walkLegs (connection : Connection) :
    connection.walkLegs.map Leg.untimed = connection.walkLegs := by
  unfold walkLegs
  cases connection.walk <;> rfl

/-- After a ride and at most one walk comes the connection to the next ride. -/
theorem changesAfter_append (ride next : Ride) (legs : List Leg)
    (hwalks : ∀ leg ∈ between, leg.isRide = false)
    (hsingle : between.length ≤ 1) : ∃ connection,
      changesAfter ride none (between ++ .ride next :: legs) =
        connection :: changesAfter next none legs ∧
      ride.leftAt connection.source = ride ∧ next.boardedBy connection = next ∧
      connection.walkLegs = between.map Leg.untimed := by
  match between with
  | [] => exact ⟨_, rfl, rfl, rfl, rfl⟩
  | [.walk stroll] => exact ⟨_, rfl, rfl, rfl, rfl⟩
  | .ride r :: rest =>
    have hride := hwalks (.ride r) List.mem_cons_self
    cases hride
  | _ :: _ :: rest => simp at hsingle

/-- The connections of some parts lead through their rides just as they are. -/
theorem through_changesAfter (hsingle : SingleWalks (.ride ride :: legs))
    (hrides : legs.filterMap Leg.ride? = rides) :
    (through (legs.rtakeWhile fun leg => !leg.isRide) ride rides
        (changesAfter ride none legs)).map Leg.untimed =
      (Leg.ride ride :: legs).map Leg.untimed := by
  induction rides generalizing ride legs with
  | nil =>
    have hwalks : ∀ leg ∈ legs, (!leg.isRide) = true := fun leg hleg => by
      simp [walk_of_ride?_eq_none.mp (List.filterMap_eq_nil_iff.mp hrides leg hleg)]
    rw [List.rtakeWhile_eq_self_iff.mpr hwalks]
    rfl
  | cons next rides ih =>
    obtain ⟨between, leg, after, rfl, hbetween, hleg, hafter⟩ :=
      List.filterMap_eq_cons_iff.mp hrides
    obtain rfl := ride_of_ride?_eq_some hleg
    have hwalks : ∀ leg ∈ between, leg.isRide = false := fun leg hleg =>
      walk_of_ride?_eq_none.mp (hbetween leg hleg)
    obtain ⟨connection, hchanges, hleft, hboarded, hwalk⟩ :=
      changesAfter_append ride next after hwalks (hsingle [] ride between next after rfl hwalks)
    have hwhole : SingleWalks ((.ride ride :: between) ++ .ride next :: after) := hsingle
    have hlater : SingleWalks (.ride next :: after) := hwhole.of_append
    rw [hchanges, through, hleft, hboarded, rtakeWhile_ride, List.map_cons, List.map_append,
      connection.untimed_walkLegs, hwalk, ih hlater hafter, ← List.map_append]
    rfl

end

namespace Itinerary

variable {access egress : Connector} {legs : List Leg} {departure : Time} {pricing : Pricing}
  {it : Itinerary} {choice : List Connection} {first : Ride} {rest : List Ride}

/-- The parts of an itinerary from its first ride on. -/
theorem exists_dropWhile_of_rides (hrides : it.rides = first :: rest) : ∃ back,
    it.legs.dropWhile (fun leg => !leg.isRide) = .ride first :: back ∧
      it.legs = it.walksFirst ++ .ride first :: back ∧ back.filterMap Leg.ride? = rest := by
  obtain ⟨back, hlegs⟩ := legs_eq_of_rides hrides
  have hsplit := List.takeWhile_append_dropWhile (p := fun leg : Leg => !leg.isRide) (l := it.legs)
  have hwalks : it.walksFirst.filterMap Leg.ride? = [] := rides_of_walks isRide_takeWhile
  refine ⟨back, List.append_cancel_left (hsplit.trans hlegs), hlegs, ?_⟩
  have hparts : (it.walksFirst ++ .ride first :: back).filterMap Leg.ride? = first :: rest := by
    rw [← hrides, rides]
    exact congrArg (List.filterMap Leg.ride?) hlegs.symm
  rw [List.filterMap_append, hwalks] at hparts
  exact (List.cons.inj hparts).2

/-- With its own connections an itinerary is rebuilt as it is. -/
theorem rebuild_changes
    (hnew : Itinerary.new access legs egress pricing.slacks pricing.tariff departure = .ok it)
    (hrides : it.rides = first :: rest) (hsingle : SingleWalks it.legs) :
    it.rebuild pricing it.changes = ScoredItinerary.new pricing.penalty it := by
  obtain ⟨haccess, hegress, huntimed, -⟩ := new_eq_ok hnew
  have hfirst : .ride first ∈ legs :=
    ride_mem_of_untimed huntimed (mem_rides.mp (hrides ▸ List.mem_cons_self))
  obtain ⟨back, hparts, hlegs, hback⟩ := exists_dropWhile_of_rides hrides
  have hchanges : it.changes = changesAfter first none back := by
    rw [changes, hparts]
  have hthrough : (it.walksFirst ++ through it.walksLast first rest it.changes).map Leg.untimed =
      legs.map Leg.untimed := by
    rw [hlegs] at hsingle
    rw [hchanges, walksLast, hlegs, rtakeWhile_ride, List.map_append,
      through_changesAfter hsingle.of_append hback, ← List.map_append, ← huntimed]
    exact congrArg (List.map Leg.untimed) hlegs.symm
  rw [rebuild, hrides]
  dsimp only
  rw [haccess, hegress, new_congr hthrough hfirst, hnew]
  rfl

end Itinerary

/-! ### Connections chosen freely -/

theorem Ride.timed_iff {r : Ride} : r.Timed ↔
    r.boardPosition < r.trip.departures.size ∧ r.alightPosition < r.trip.arrivals.size := by
  constructor
  · rintro ⟨hboard, halight⟩
    exact ⟨(Array.getElem?_eq_some_iff.mp (fetch_eq_ok.mp hboard)).1,
      (Array.getElem?_eq_some_iff.mp (fetch_eq_ok.mp halight)).1⟩
  · rintro ⟨hboard, halight⟩
    exact ⟨by simp [boardTime, Trip.departure, fetch, departs, hboard],
      by simp [alightTime, Trip.arrival, fetch, arrives, halight]⟩

/-- One connection between any two consecutive rides, from a position of the first trip to a
position of the second one. -/
def Ridable (rides : List Ride) (choice : List Connection) : Prop :=
  List.Forall₂ (fun pair connection =>
    connection.source.position < pair.1.trip.arrivals.size ∧
      connection.target.position < pair.2.trip.departures.size) (rides.zip rides.tail) choice

section

variable {pricing : Pricing} {after : List Leg} {egress : Connector} {ride next last : Ride}
  {rest : List Ride} {choice : List Connection} {connection : Connection} {it : Itinerary}

/-- The first connection is between positions of the first two trips, and the others are between
those of the rest. -/
theorem Ridable.cons_inv (h : Ridable (ride :: next :: rest) (connection :: choice)) :
    connection.source.position < ride.trip.arrivals.size ∧
      connection.target.position < next.trip.departures.size ∧ Ridable (next :: rest) choice := by
  obtain ⟨⟨hsource, htarget⟩, hrest⟩ := List.forall₂_cons.mp h
  exact ⟨hsource, htarget, hrest⟩

theorem Ridable.boardedBy (h : Ridable (ride :: rest) choice) :
    Ridable (ride.boardedBy connection :: rest) choice := by
  cases rest with
  | nil => exact h
  | cons next rest =>
    obtain ⟨_, _, hfirst, hrest, rfl⟩ := List.forall₂_cons_left_iff.mp h
    exact .cons hfirst hrest

/-- The rides between the connections of a choice have times. -/
theorem Ridable.timed_through (h : Ridable (ride :: rest) choice)
    (hafter : ∀ leg ∈ after, leg.isRide = false) (hride : ride.Timed)
    (hrest : ∀ r ∈ rest, r.Timed) : AllTimed (through after ride rest choice) := by
  induction rest generalizing ride choice with
  | nil => exact allTimed_ride.mpr ⟨hride, .of_walks hafter⟩
  | cons next rest ih =>
    cases choice with
    | nil => cases h
    | cons connection choice =>
      obtain ⟨hsource, htarget, hlater⟩ := h.cons_inv
      obtain ⟨hnext, hrest⟩ := List.forall_mem_cons.mp hrest
      have hboarded : (next.boardedBy connection).Timed :=
        Ride.timed_iff.mpr ⟨htarget, (Ride.timed_iff.mp hnext).2⟩
      have hleft : (ride.leftAt connection.source).Timed :=
        Ride.timed_iff.mpr ⟨(Ride.timed_iff.mp hride).1, hsource⟩
      have hrides := ih hlater.boardedBy hboarded hrest
      exact allTimed_ride.mpr
        ⟨hleft, allTimed_append.mpr ⟨.of_walks connection.walkLegs_walks, hrides⟩⟩

/-- The rides of an itinerary, put in front of the last one with the connections of a choice, make
the tail that the choice leads through. -/
theorem Ridable.yields_foldrM_prepend (h : Ridable (ride :: rest) choice)
    (hpenalty : Pricing.Safe pricing.penalty) (hafter : ∀ leg ∈ after, leg.isRide = false)
    (hrides : ∀ r ∈ ride :: rest, r.Timed) (hlast : (ride :: rest).getLast? = some last) :
    Yields (((ride :: rest).zip choice).foldrM (fun step tail => tail.prepend pricing step.1 step.2)
        (tailOf pricing after egress last [] []))
      fun tail => tail = tailOf pricing after egress ride rest choice := by
  induction rest generalizing ride choice with
  | nil =>
    cases h
    cases hlast
    rfl
  | cons next rest ih =>
    cases choice with
    | nil => cases h
    | cons connection choice =>
      obtain ⟨hride, hrest⟩ := List.forall_mem_cons.mp hrides
      rw [List.getLast?_cons_cons] at hlast
      rw [List.zip_cons_cons, List.foldrM_cons]
      apply (ih h.cons_inv.2.2 hrest hlast).bind
      rintro _ - rfl
      have hyields : Yields ((tailOf pricing after egress next rest choice).prepend pricing ride
          connection) fun _ => True := by
        rw [Tail.prepend, tailOf, prependLegs_through]
        exact (Tail.yields_ofLegs hpenalty (h.timed_through hafter hride hrest)).mono
          fun _ _ _ => trivial
      exact hyields.mono fun _ htail _ => prepend_tailOf htail

/-- An itinerary that is put together from its last ride to its first one, with the connections of a
choice. The tail is what there was before the first ride was reached. -/
def Itinerary.reassemble (pricing : Pricing) (it : Itinerary) (choice : List Connection) :
    Checked (Option (Tail × ScoredItinerary)) := do
  match ← Tail.ofItinerary? pricing it with
  | none => return none
  | some last =>
    let tail ← (it.rides.zip choice).foldrM
      (fun step tail => tail.prepend pricing step.1 step.2) last
    return some (tail, ← tail.complete pricing it)

theorem yields_ofItinerary?_of_timed (hpenalty : Pricing.Safe pricing.penalty)
    (htimed : AllTimed it.legs) : Yields (Tail.ofItinerary? pricing it) fun _ => True := by
  rw [Tail.ofItinerary?]
  cases hparts : Tail.fromLastRide? it.legs with
  | none => trivial
  | some parts =>
    obtain ⟨before, last, after, -, hlegs, -⟩ := Tail.fromLastRide?_eq_some hparts
    rw [hlegs, allTimed_append] at htimed
    exact (Tail.yields_ofLegs hpenalty htimed.2).map fun _ _ => trivial

/-- What is put together from tails is the itinerary with the transfers of the choice. -/
theorem Ridable.yields_reassemble (h : Ridable it.rides choice)
    (hpenalty : Pricing.Safe pricing.penalty) (htimed : AllTimed it.legs)
    (hrides : it.rides = ride :: rest) :
    Yields (it.reassemble pricing choice) fun result => ∃ scored,
      it.rebuild pricing choice = .ok scored ∧
        result = some (tailOf pricing it.walksLast it.egress.leg ride rest choice, scored) := by
  have hall : ∀ r ∈ it.rides, r.Timed := fun r hr => htimed r (Itinerary.mem_rides.mp hr)
  rw [hrides] at h hall
  obtain ⟨hride, hrest⟩ := List.forall_mem_cons.mp hall
  have hrebuild := Itinerary.yields_rebuild_of_timed hrides hpenalty
    (h.timed_through Itinerary.isRide_walksLast hride hrest)
  apply (yields_ofItinerary?_of_timed hpenalty htimed).bind
  intro found hfound _
  obtain ⟨last, hlast, rfl⟩ := tail_of_ofItinerary? hrides hfound
  dsimp only
  rw [hrides]
  apply (h.yields_foldrM_prepend hpenalty Itinerary.isRide_walksLast hall hlast).bind
  rintro _ - rfl
  rw [complete_tailOf hrides]
  apply hrebuild.bind
  intro scored hscored _
  exact ⟨scored, hscored, rfl⟩

/-- The connections of an itinerary are between positions of its trips. -/
theorem ridable_changesAfter {legs : List Leg} {walk : Option Walk}
    (htimed : AllTimed (.ride ride :: legs)) :
    Ridable (ride :: legs.filterMap Leg.ride?) (changesAfter ride walk legs) := by
  induction legs generalizing ride walk with
  | nil => exact .nil
  | cons leg legs ih =>
    obtain ⟨hride, hrest⟩ := allTimed_ride.mp htimed
    cases leg with
    | walk stroll =>
      exact ih (allTimed_ride.mpr ⟨hride, hrest.cons⟩)
    | ride next =>
      obtain ⟨hnext, -⟩ := allTimed_ride.mp hrest
      exact .cons ⟨(Ride.timed_iff.mp hride).2, (Ride.timed_iff.mp hnext).1⟩ (ih hrest)

/-- An itinerary can be put together with its own connections. -/
theorem ridable_changes (htimed : AllTimed it.legs) (hrides : it.rides = ride :: rest) :
    Ridable it.rides it.changes := by
  obtain ⟨back, hparts, hlegs, rfl⟩ := Itinerary.exists_dropWhile_of_rides hrides
  rw [hrides, Itinerary.changes, hparts]
  rw [hlegs, allTimed_append] at htimed
  exact ridable_changesAfter htimed.2

end

/-- What becomes of an itinerary that is put together again from its last ride to its first one, as
far as no number overflows. With its own connections, at most one walk each, it is what it was. With
connections chosen freely, the tail and the itinerary are those that the choice leads through, the
transfers have the priority of the tail, and what the generalized cost adds to that of the tail does
not depend on the choice. -/
theorem reassemble_changes {access egress : Connector} {legs : List Leg} {departure : Time}
    {pricing : Pricing} {it : Itinerary}
    (hnew : Itinerary.new access legs egress pricing.slacks pricing.tariff departure = .ok it)
    (hpenalty : Pricing.Safe pricing.penalty) (hrides : it.rides ≠ [])
    (hsingle : SingleWalks it.legs) :
    Yields (it.reassemble pricing it.changes) (fun result => ∃ tail scored,
      result = some (tail, scored) ∧ scored.itinerary = it) ∧
    ∃ first rest difference, it.rides = first :: rest ∧ ∀ choice, Ridable it.rides choice →
      Yields (it.reassemble pricing choice) fun result => ∃ tail scored,
        result = some (tail, scored) ∧
          tail = tailOf pricing it.walksLast it.egress.leg first rest choice ∧
          it.rebuild pricing choice = .ok scored ∧
          scored.score.priority = tail.score.priority ∧
          scored.score.generalized - tail.score.generalized = difference := by
  obtain ⟨first, rest, hfirst⟩ := List.exists_cons_of_ne_nil hrides
  obtain ⟨-, -, huntimed, htimed, -⟩ := Itinerary.new_eq_ok hnew
  have htimed : AllTimed it.legs := htimed.of_untimed huntimed
  constructor
  · apply ((ridable_changes htimed hfirst).yields_reassemble hpenalty htimed hfirst).mono
    rintro _ - ⟨scored, hrebuild, rfl⟩
    rw [Itinerary.rebuild_changes hnew hfirst hsingle] at hrebuild
    exact ⟨_, scored, rfl, ScoredItinerary.itinerary_eq hrebuild⟩
  · refine ⟨first, rest, (pricing.startScore it.access.leg it.walksFirst first).generalized,
      hfirst, ?_⟩
    intro choice hchoice
    apply (hchoice.yields_reassemble hpenalty htimed hfirst).mono
    rintro _ - ⟨scored, hrebuild, rfl⟩
    refine ⟨_, scored, rfl, rfl, hrebuild, ?_, ?_⟩
    · rw [score_of_rebuild hfirst hrebuild]
      exact zero_add _
    · rw [score_of_rebuild hfirst hrebuild]
      exact add_sub_cancel_right _ _

/-- The crossing lines with a walk from B to C. -/
def walkableLines : Draft :=
  { RefinementScene.crossingLines with walks := [⟨"B", "C", 300⟩] }

/-- From A to D with a walk from B to C on the way. -/
def walkingToC (net : Network) : Option (List Leg) := do
  let red ← net.trip? "red 1"
  let blue ← net.trip? "blue 1"
  some [.ride ⟨red, 0, 1, 0, 1, .regular⟩, .walk (.untimed 1 2 300),
    .ride ⟨blue, 1, 2, 2, 3, .regular⟩]

/-- What costs depend on where waits do not count. -/
def plainPricing : Pricing := ⟨plainTariff, {}, none⟩

/-- The itinerary with the walk is put together again with it. -/
theorem reassemble_changes_walkingToC : ∃ net legs it tail scored,
    walkableLines.build = .ok net ∧ walkingToC net = some legs ∧
    Itinerary.new ⟨0, 100, 200, true⟩ legs ⟨3, 100, 200, false⟩ plainPricing.slacks
      plainPricing.tariff 35000 = .ok it ∧
    Pricing.Safe plainPricing.penalty ∧ it.rides ≠ [] ∧ SingleWalks it.legs ∧
    it.changes.map (·.walkDuration) = [300] ∧
    it.reassemble plainPricing it.changes = .ok (some (tail, scored)) ∧ scored.itinerary = it ∧
    ∃ first rest difference, it.rides = first :: rest ∧ ∀ choice, Ridable it.rides choice →
      Yields (it.reassemble plainPricing choice) fun result => ∃ tail scored,
        result = some (tail, scored) ∧
          tail = tailOf plainPricing it.walksLast it.egress.leg first rest choice ∧
          it.rebuild plainPricing choice = .ok scored ∧
          scored.score.priority = tail.score.priority ∧
          scored.score.generalized - tail.score.generalized = difference := by
  have hbuilds : walkableLines.builds (fun net => decide (∃ legs ∈ walkingToC net,
      ∃ it ∈ (Itinerary.new ⟨0, 100, 200, true⟩ legs ⟨3, 100, 200, false⟩ plainPricing.slacks
        plainPricing.tariff 35000).toOption,
      it.rides ≠ [] ∧ it.legs.IsChain (fun leg leg' => leg.isRide = true ∨ leg'.isRide = true) ∧
      it.changes.map (·.walkDuration) = [300] ∧
      (it.reassemble plainPricing it.changes).toOption.isSome = true)) = true := by
    decide +kernel
  obtain ⟨net, hbuild, hfacts⟩ := Draft.exists_of_builds hbuilds
  obtain ⟨legs, hlegs, it, hnew, hrides, hchain, hwalk, hsome⟩ := of_decide_eq_true hfacts
  obtain ⟨result, hresult⟩ := Option.isSome_iff_exists.mp hsome
  have hpenalty : Pricing.Safe plainPricing.penalty := by
    rintro penalty ⟨⟩
  have hsingle := SingleWalks.of_isChain hchain
  obtain ⟨hown, hfree⟩ :=
    reassemble_changes (toOption_eq_some.mp hnew) hpenalty hrides hsingle
  obtain ⟨tail, scored, rfl, hsame⟩ := hown.of_ok (toOption_eq_some.mp hresult)
  exact ⟨net, legs, it, tail, scored, hbuild, hlegs, toOption_eq_some.mp hnew, hpenalty, hrides,
    hsingle, hwalk, toOption_eq_some.mp hresult, hsame, hfree⟩

end JourneyPlanner
