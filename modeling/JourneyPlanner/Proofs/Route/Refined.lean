import JourneyPlanner.Proofs.Refinement.Alternatives
import JourneyPlanner.Proofs.Refinement.Rebuilding
import JourneyPlanner.Proofs.Route.Faults

/-!
# Refined routes

The choice of transfers moves transfers and nothing else. Whatever connections it takes, the rides
are on the same trips, the first one is boarded and the last one left where they were, and the
journey starts and ends when it did. The transfers that it chose can all be made, and the rides
between them are offered.

* `Itinerary.MovesTransfers`: an itinerary that differs from another one by its transfers.
* `ConnectionScene.Joins`: two rides and the walk between them make a connection that can be made.
* `ConnectionScene.Possible.offers_through`, `ConnectionScene.Possible.joins_through`: the rides and
  the changes that a choice of connections makes.
* `route_refine`: what the choice of transfers makes of the itineraries of a route.
-/

namespace JourneyPlanner

section

variable {legs : List Leg}

theorem rides_untimed : (legs.map Leg.untimed).filterMap Leg.ride? = legs.filterMap Leg.ride? := by
  rw [List.filterMap_map]
  exact List.filterMap_congr fun leg _ => by cases leg <;> rfl

end

/-! ### Rides at other positions -/

namespace Network.Offers

variable {net : Network} {date : Date} {r : Ride} {p : Pattern}

/-- A ride may be left at any call after its boarding where alighting is allowed. -/
theorem leftAt {call : TripCall} (h : net.Offers date r)
    (hp : net.patterns[r.trip.pattern]? = some p) (halights : p.Alights r.trip call)
    (hafter : r.boardPosition < call.position) : net.Offers date (r.leftAt call) := by
  obtain ⟨p', t, hp', ht, hmem, hruns, -, hboards, -, hstop, -⟩ := h
  obtain rfl := Option.some.inj (hp.symm.trans hp')
  exact ⟨p, t, hp, ht, hmem, hruns, hafter, hboards, halights.allowed, hstop, halights.stop⟩

/-- A ride may be boarded at any call before it is left where boarding is allowed. -/
theorem boardedBy {connection : Connection} (h : net.Offers date r)
    (hp : net.patterns[r.trip.pattern]? = some p) (hboards : p.Boards r.trip connection.target)
    (hbefore : connection.target.position < r.alightPosition) :
    net.Offers date (r.boardedBy connection) := by
  obtain ⟨p', t, hp', ht, hmem, hruns, -, -, halights, -, hstop⟩ := h
  obtain rfl := Option.some.inj (hp.symm.trans hp')
  exact ⟨p, t, hp, ht, hmem, hruns, hbefore, hboards.allowed, halights, hboards.stop, hstop⟩

end Network.Offers

namespace Pattern

variable {p : Pattern} {r : Ride}

theorem Alights.eq_leaving {call : TripCall} (h : p.Alights r.trip call) :
    call = (r.leftAt call).leaving := by
  obtain ⟨trip, position, stop, time⟩ := call
  obtain ⟨rfl, -, -, htime⟩ := h
  have htime : time = (r.leftAt ⟨r.trip, position, stop, time⟩).arrives :=
    Ride.alightTime_eq_ok htime
  exact congrArg (TripCall.mk r.trip position stop) htime

theorem Boards.eq_boarding {connection : Connection} (h : p.Boards r.trip connection.target) :
    connection.target = (r.boardedBy connection).boarding := by
  obtain ⟨source, ⟨trip, position, stop, time⟩, walk, constraint⟩ := connection
  obtain ⟨rfl, -, -, htime⟩ := h
  have htime : time = (r.boardedBy ⟨source, ⟨r.trip, position, stop, time⟩, walk,
      constraint⟩).departs := Ride.boardTime_eq_ok htime
  exact congrArg (TripCall.mk r.trip position stop) htime

end Pattern

/-! ### Changes of a choice -/

/-- Two rides with nothing but walks between them make a connection that can be made, and the second
one is labelled with what is known about it. -/
def ConnectionScene.Joins (s : ConnectionScene) (first : Ride) (between : List Leg)
    (second : Ride) : Prop :=
  ∃ connection, s.Connects first.trip second.trip connection ∧
    connection.source = first.leaving ∧ connection.target = second.boarding ∧
    connection.walkLegs = between.map Leg.untimed ∧ connection.constraint = second.constraint

section

variable {after : List Leg} {ride next : Ride} {rest : List Ride} {connection : Connection}
  {choice : List Connection}

theorem rides_through_cons :
    (through after ride (next :: rest) (connection :: choice)).filterMap Leg.ride? =
      ride.leftAt connection.source ::
        (through after (next.boardedBy connection) rest choice).filterMap Leg.ride? := by
  have hwalks : connection.walkLegs.filterMap Leg.ride? = [] :=
    Itinerary.rides_of_walks connection.walkLegs_walks
  rw [through, List.filterMap_cons, List.filterMap_append, hwalks, List.nil_append]
  rfl

theorem rides_through_nil (hafter : ∀ leg ∈ after, leg.isRide = false) :
    (through after ride [] choice).filterMap Leg.ride? = [ride] := by
  have hnone : after.filterMap Leg.ride? = [] := Itinerary.rides_of_walks hafter
  show (Leg.ride ride :: after).filterMap Leg.ride? = [ride]
  rw [List.filterMap_cons, hnone]
  rfl

/-- Whatever connections lead through them, rides stay on their trips. The first one is boarded and
the last one left where they were. -/
theorem rides_through (ride : Ride) (hafter : ∀ leg ∈ after, leg.isRide = false)
    (hlength : choice.length = rest.length) :
    ((through after ride rest choice).filterMap Leg.ride?).map (·.trip) =
        (ride :: rest).map (·.trip) ∧
      ((through after ride rest choice).filterMap Leg.ride?).head?.map (·.boarding) =
        some ride.boarding ∧
      ((through after ride rest choice).filterMap Leg.ride?).getLast?.map (·.leaving) =
        (ride :: rest).getLast?.map (·.leaving) := by
  induction rest generalizing ride choice with
  | nil =>
    rw [rides_through_nil hafter]
    exact ⟨rfl, rfl, rfl⟩
  | cons next rest ih =>
    cases choice with
    | nil => cases hlength
    | cons connection choice =>
      obtain ⟨htrips, -, hlast⟩ := ih (next.boardedBy connection) (Nat.succ.inj hlength)
      rw [rides_through_cons]
      refine ⟨congrArg (ride.trip :: ·) htrips, rfl, ?_⟩
      obtain ⟨call, parts, hparts, -⟩ :=
        exists_through after (next.boardedBy connection) rest choice
      rw [hparts, List.filterMap_cons] at hlast ⊢
      dsimp only [Leg.ride?] at hlast ⊢
      rw [List.getLast?_cons_cons, hlast, List.getLast?_cons_cons]
      cases rest <;> rfl

end

/-- What holds of every element of some lists holds of the elements picked from them. -/
theorem forall₂_of_forall₂_mem {α β : Type} {R : α → β → Prop} {xs : List α} {ys : List β}
    {lists : List (List β)} (h : List.Forall₂ (fun x list => ∀ y ∈ list, R x y) xs lists)
    (hmem : List.Forall₂ (· ∈ ·) ys lists) : List.Forall₂ R xs ys := by
  induction h generalizing ys with
  | nil =>
    cases hmem
    exact .nil
  | cons hx _ ih =>
    cases hmem with
    | cons hy hmem => exact .cons (hx _ hy) (ih hmem)

namespace ConnectionScene

variable {s : ConnectionScene} {after : List Leg} {ride next first second : Ride}
  {rides rest : List Ride} {connection : Connection} {choice : List Connection} {date : Date}
  {alternatives : List (List Connection)}

/-- The choices from the alternatives are possible, and every ride is boarded before it is left in
the itinerary. -/
theorem possible_of_isChoice (hnet : s.network.Sound) (hplaces : ∀ r ∈ rest, s.network.Places r)
    (halternatives : s.alternatives (ride :: rest) = .ok alternatives)
    (hchoice : IsChoice alternatives choice) :
    s.Possible (ride :: rest) choice ∧
      List.Forall₂ (fun next connection => connection.target.position < next.alightPosition)
        rest choice := by
  obtain ⟨hconnects, hstarts⟩ := forall₂_connects hnet hplaces halternatives
  obtain ⟨hmem, hinOrder⟩ := hchoice
  refine ⟨⟨?_, hinOrder, ?_⟩, ?_⟩
  · exact (forall₂_of_forall₂_mem hconnects hmem).imp fun _ _ h => h.1
  · rintro _ ⟨⟩ connection hconnection
    cases hmem with
    | nil => cases hconnection
    | cons hfirst _ =>
      obtain rfl := Option.some.inj hconnection
      exact hstarts _ rfl _ hfirst
  · exact forall₂_of_forall₂_mem (forall₂_alternativesFrom halternatives) hmem

/-- Once the first connection of a possible choice is made, the rest is possible from the next
ride on. -/
theorem Possible.cons_inv (h : s.Possible (ride :: next :: rest) (connection :: choice)) :
    s.Connects ride.trip next.trip connection ∧
      ride.boardPosition < connection.source.position ∧
      s.Possible (next.boardedBy connection :: rest) choice := by
  obtain ⟨hconnects, hinOrder, hstarts⟩ := h
  obtain ⟨hfirst, hconnects⟩ := List.forall₂_cons.mp hconnects
  obtain ⟨hnext, hinOrder⟩ := List.isChain_cons.mp hinOrder
  refine ⟨hfirst, hstarts _ rfl _ rfl, ⟨?_, hinOrder, ?_⟩⟩
  · cases rest with
    | nil => exact hconnects
    | cons later rest =>
      obtain ⟨_, _, hsecond, hlater, rfl⟩ := List.forall₂_cons_left_iff.mp hconnects
      exact .cons hsecond hlater
  · rintro _ ⟨⟩ later hlater
    exact hnext later hlater

/-- All rides of a possible choice are offered. -/
theorem Possible.offers_through (h : s.Possible (ride :: rest) choice)
    (hbefore : List.Forall₂ (fun next connection =>
      connection.target.position < next.alightPosition) rest choice)
    (hafter : ∀ leg ∈ after, leg.isRide = false) (hride : s.network.Offers date ride)
    (hrest : ∀ r ∈ rest, s.network.Offers date r) :
    ∀ r ∈ (through after ride rest choice).filterMap Leg.ride?, s.network.Offers date r := by
  induction hbefore generalizing ride with
  | nil =>
    rw [rides_through_nil hafter]
    exact List.forall_mem_singleton.mpr hride
  | @cons next connection rest choice hbefore _ ih =>
    obtain ⟨hconnects, hleaves, hpossible⟩ := h.cons_inv
    obtain ⟨⟨p, hp, halights⟩, ⟨q, hq, hboards⟩, -⟩ := hconnects
    obtain ⟨hnext, hrest⟩ := List.forall_mem_cons.mp hrest
    rw [rides_through_cons]
    refine List.forall_mem_cons.mpr ⟨hride.leftAt hp halights hleaves, ?_⟩
    exact ih hpossible (hnext.boardedBy hq hboards hbefore) hrest

/-- Consecutive rides of a possible choice are joined by its connections. -/
theorem Possible.joins_through {before between others : List Leg}
    (h : s.Possible (ride :: rest) choice) (hlength : choice.length = rest.length)
    (hafter : ∀ leg ∈ after, leg.isRide = false)
    (hlegs : through after ride rest choice =
      before ++ .ride first :: (between ++ .ride second :: others))
    (hbetween : ∀ leg ∈ between, leg.isRide = false) : s.Joins first between second := by
  induction rest generalizing ride choice before with
  | nil =>
    -- there is only one ride
    have hrides := congrArg (fun legs => (legs.filterMap Leg.ride?).length) hlegs
    simp [rides_through_nil hafter, Leg.ride?] at hrides
    omega
  | cons next rest ih =>
    cases choice with
    | nil => cases hlength
    | cons connection choice =>
      obtain ⟨hconnects, -, hpossible⟩ := h.cons_inv
      rw [through] at hlegs
      cases before with
      | nil =>
        obtain ⟨hfirst, hlegs⟩ := List.cons.inj hlegs
        obtain ⟨call, parts, hparts, -⟩ :=
          exists_through after (next.boardedBy connection) rest choice
        rw [hparts] at hlegs
        obtain ⟨rfl, rfl⟩ := walks_eq_of_append connection.walkLegs_walks hbetween hlegs
        obtain rfl := Leg.ride.inj hfirst
        obtain ⟨p, -, halights⟩ := hconnects.alights
        obtain ⟨q, -, hboards⟩ := hconnects.boards
        exact ⟨connection, hconnects, halights.eq_leaving, hboards.eq_boarding,
          connection.untimed_walkLegs.symm, rfl⟩
      | cons leg before =>
        obtain ⟨-, hlegs⟩ := List.cons.inj hlegs
        obtain ⟨_, -, hlegs⟩ := exists_append_of_walks connection.walkLegs_walks hlegs
        exact ih hpossible (Nat.succ.inj hlength) hlegs

end ConnectionScene

/-! ### Itineraries -/

/-- An itinerary and one that differs from it by nothing but its transfers. -/
structure Itinerary.MovesTransfers (it refined : Itinerary) : Prop where
  access_eq : refined.access.leg = it.access.leg
  egress_eq : refined.egress.leg = it.egress.leg
  trips_eq : refined.rides.map (·.trip) = it.rides.map (·.trip)
  boards_eq : refined.rides.head?.map (·.boarding) = it.rides.head?.map (·.boarding)
  leaves_eq : refined.rides.getLast?.map (·.leaving) = it.rides.getLast?.map (·.leaving)
  start_eq : refined.startTime = it.startTime
  end_eq : refined.endTime = it.endTime
  transfers_eq : refined.transferCount = it.transferCount

theorem Itinerary.MovesTransfers.refl (it : Itinerary) : it.MovesTransfers it :=
  ⟨rfl, rfl, rfl, rfl, rfl, rfl, rfl, rfl⟩

namespace Itinerary

variable {it : Itinerary} {pricing : Pricing} {choice : List Connection} {first : Ride}
  {rest : List Ride} {scored : ScoredItinerary}

/-- An itinerary with the transfers of a choice is made of the parts that the choice leads
through. -/
theorem new_of_rebuild (hrides : it.rides = first :: rest)
    (h : it.rebuild pricing choice = .ok scored) :
    Itinerary.new it.access.leg (it.walksFirst ++ through it.walksLast first rest choice)
      it.egress.leg pricing.slacks pricing.tariff it.startTime = .ok scored.itinerary := by
  rw [rebuild, hrides] at h
  obtain ⟨rebuilt, hnew, h⟩ := bind_eq_ok.mp h
  rw [ScoredItinerary.itinerary_eq h]
  exact hnew

/-- An itinerary with the transfers of a choice has the same connectors, and the parts that the
choice leads through. -/
theorem rebuild_eq_ok (hrides : it.rides = first :: rest)
    (h : it.rebuild pricing choice = .ok scored) :
    scored.itinerary.access.leg = it.access.leg ∧ scored.itinerary.egress.leg = it.egress.leg ∧
      scored.itinerary.legs.map Leg.untimed =
        (it.walksFirst ++ through it.walksLast first rest choice).map Leg.untimed := by
  obtain ⟨haccess, hegress, huntimed, -⟩ := new_eq_ok (new_of_rebuild hrides h)
  exact ⟨haccess, hegress, huntimed⟩

/-- The rides of an itinerary with the transfers of a choice. -/
theorem rides_rebuild (hrides : it.rides = first :: rest)
    (h : it.rebuild pricing choice = .ok scored) :
    scored.itinerary.rides = (through it.walksLast first rest choice).filterMap Leg.ride? := by
  have hfirst : it.walksFirst.filterMap Leg.ride? = [] :=
    rides_of_walks isRide_takeWhile
  obtain ⟨-, -, huntimed⟩ := rebuild_eq_ok hrides h
  rw [rides, ← rides_untimed, huntimed, rides_untimed, List.filterMap_append, hfirst,
    List.nil_append]

end Itinerary

namespace RefinementScene

variable {c : RefinementScene} {it : Itinerary} {scored : ScoredItinerary}

theorem ofRequest_eq_ok {net : Network} {request : Request} (h : ofRequest net request = .ok c) :
    c.connections = .ofRequest net request ∧ c.slacks = request.slacks := by
  obtain ⟨tariff, -, h⟩ := bind_eq_ok.mp h
  cases h
  exact ⟨rfl, rfl⟩

/-- A refined itinerary is the one that was given, or has the transfers of a choice. -/
theorem exists_choice_of_refine (h : c.refine it = .ok scored) : scored.itinerary = it ∨
    ∃ first rest alternatives choice, it.rides = first :: rest ∧
      c.connections.alternatives (first :: rest) = .ok alternatives ∧
      IsChoice alternatives choice ∧ it.rebuild (c.pricingOf it) choice = .ok scored := by
  rcases refine_eq_ok h with ⟨hkept, -⟩ |
    ⟨alternatives, last, tails, completed, htails, hcompleted, hbest | ⟨-, hkept⟩⟩
  · exact .inl (ScoredItinerary.itinerary_eq hkept)
  · obtain ⟨first, rest, hrides⟩ := List.exists_cons_of_length_pos
      (Nat.zero_lt_two.trans_le htails.several)
    obtain ⟨tail, htail, hcomplete⟩ := exists_of_mem_mapM hcompleted (mem_of_best? hbest)
    obtain ⟨choice, hchoice, rfl⟩ := (htails.keepsBest hrides).chosen tail htail
    exact .inr ⟨first, rest, alternatives, choice, hrides, hrides ▸ htails.found, hchoice,
      (complete_tailOf hrides).symm.trans hcomplete⟩
  · exact .inl (ScoredItinerary.itinerary_eq hkept)

/-- The walks of a refined itinerary are next to its rides. -/
theorem arranged_of_refine (harranged : it.Arranged c.slacks) (h : c.refine it = .ok scored) :
    scored.itinerary.Arranged c.slacks := by
  rcases exists_choice_of_refine h with hkept | ⟨first, rest, _, choice, hrides, -, -, hrebuild⟩
  · rw [hkept]
    exact harranged
  · exact Itinerary.new_arranged (Itinerary.new_of_rebuild hrides hrebuild)

/-- The choice of transfers moves transfers and nothing else. -/
theorem movesTransfers_of_refine {departure : Time} (htimes : it.Times c.slacks departure)
    (h : c.refine it = .ok scored) : it.MovesTransfers scored.itinerary := by
  obtain ⟨hstart, hend⟩ := refine_ends htimes h
  rcases exists_choice_of_refine h with hkept |
    ⟨first, rest, alternatives, choice, hrides, halternatives, hchoice, hrebuild⟩
  · rw [hkept]
    exact .refl it
  · have hlength : choice.length = rest.length := hchoice.mem.length_eq.trans
      (ConnectionScene.forall₂_alternativesFrom halternatives).length_eq.symm
    obtain ⟨haccess, hegress, -⟩ := Itinerary.rebuild_eq_ok hrides hrebuild
    obtain ⟨htrips, hboards, hleaves⟩ :=
      rides_through first Itinerary.isRide_walksLast hlength
    rw [← Itinerary.rides_rebuild hrides hrebuild] at htrips hboards hleaves
    rw [← hrides] at htrips hleaves
    refine ⟨haccess, hegress, htrips, ?_, hleaves, hstart, hend, ?_⟩
    · rw [hboards, hrides]
      rfl
    · have hcount : scored.itinerary.rideCount = it.rideCount := by
        simpa [Itinerary.rideCount] using congrArg List.length htrips
      rw [Itinerary.transferCount, Itinerary.transferCount, haccess, hegress, hcount]

/-- Transfers that were moved can be made, and the rides between them are offered. -/
theorem joins_of_refine {date : Date} (hnet : c.connections.network.Sound)
    (hoffers : ∀ r ∈ it.rides, c.connections.network.Offers date r) (h : c.refine it = .ok scored) :
    (∀ r ∈ scored.itinerary.rides, c.connections.network.Offers date r) ∧
      (scored.itinerary ≠ it → ∀ before first between second after,
        scored.itinerary.legs = before ++ .ride first :: (between ++ .ride second :: after) →
        (∀ leg ∈ between, leg.isRide = false) → c.connections.Joins first between second) := by
  rcases exists_choice_of_refine h with hkept |
    ⟨first, rest, alternatives, choice, hrides, halternatives, hchoice, hrebuild⟩
  · rw [hkept]
    exact ⟨hoffers, fun hmoved => absurd rfl hmoved⟩
  · rw [hrides] at hoffers
    obtain ⟨hfirst, hrest⟩ := List.forall_mem_cons.mp hoffers
    obtain ⟨hpossible, hbefore⟩ := ConnectionScene.possible_of_isChoice hnet
      (fun r hr => (hrest r hr).places hnet) halternatives hchoice
    constructor
    · rw [Itinerary.rides_rebuild hrides hrebuild]
      exact hpossible.offers_through hbefore Itinerary.isRide_walksLast hfirst hrest
    · rintro - before first' between second after hlegs hwalks
      obtain ⟨-, -, huntimed⟩ := Itinerary.rebuild_eq_ok hrides hrebuild
      obtain ⟨before', between', after', hlegs', hbetween, hwalks'⟩ :=
        exists_of_untimed huntimed hlegs hwalks
      obtain ⟨_, -, hthrough⟩ := exists_append_of_walks Itinerary.isRide_takeWhile hlegs'
      obtain ⟨connection, hconnects, hsource, htarget, hwalk, hconstraint⟩ :=
        hpossible.joins_through hbefore.length_eq.symm Itinerary.isRide_walksLast hthrough hwalks'
      exact ⟨connection, hconnects, hsource, htarget, hwalk.trans hbetween.symm, hconstraint⟩

end RefinementScene

/-- The itinerary of a finish has the times that its parts ask for, and its walks are next to its
rides. -/
theorem LabelScene.times_of_itinerary {c : LabelScene} {s : Labels} {finish : Finish}
    {it : Itinerary} (h : c.itinerary? s finish = .ok (some it)) :
    (∃ departure, it.Times c.slacks departure) ∧ it.Arranged c.slacks := by
  cases assembles_of_itinerary h with
  | forward _ _ hnew | reverse _ _ _ hnew =>
    exact ⟨⟨_, (Itinerary.new_eq_ok hnew).2.2.2.2⟩, Itinerary.new_arranged hnew⟩

/-- What the choice of transfers makes of an itinerary of a route, as far as no number overflows. It
has the same legs from the origin and to the destination, the same trips, the same first boarding
and last alighting, and the same times and number of transfers. All its rides are offered. Once it
is not the itinerary that was given, any two consecutive rides make a connection that can be made,
with or without a declared walk, under the constraint that is known for it. -/
theorem route_refine {draft : Draft} {net : Network} {request : Request} {result : RouteResult}
    {it : Itinerary} {scene : RefinementScene} (hbuild : draft.build = .ok net)
    (hroute : net.route request = .ok result) (hit : it ∈ result.itineraries)
    (hscene : RefinementScene.ofRequest net request = .ok scene) :
    Yields (scene.refine it) fun scored =>
      it.MovesTransfers scored.itinerary ∧
      (∀ r ∈ scored.itinerary.rides, net.Offers request.date r) ∧
      (scored.itinerary ≠ it → ∀ before first between second after,
        scored.itinerary.legs = before ++ .ride first :: (between ++ .ride second :: after) →
        (∀ leg ∈ between, leg.isRide = false) →
        (ConnectionScene.ofRequest net request).Joins first between second) := by
  have hnet := Draft.build_sound hbuild
  obtain ⟨hconnections, hslacks⟩ := RefinementScene.ofRequest_eq_ok hscene
  have hnetwork : scene.connections.network = net := by rw [hconnections]; rfl
  obtain ⟨tariff, bounds, times, progress, e, hrun, -, hitinerary⟩ :=
    Network.exists_finish_of_mem_route hroute hit
  have hoffers := LabelScene.offers_of_itinerary hitinerary
    ((Network.yields_justified hnet).of_ok hrun) hnet Network.labelScene_for
  obtain ⟨⟨departure, htimes⟩, -⟩ := LabelScene.times_of_itinerary hitinerary
  rw [Network.labelScene_for.slacks_eq, ← hslacks] at htimes
  have hplaces := Network.places_of_mem_route hnet hroute hit
  rw [← hnetwork] at hnet hplaces
  apply (RefinementScene.yields_refine hnet hplaces).mono
  intro scored hscored _
  refine ⟨RefinementScene.movesTransfers_of_refine htimes hscored, ?_⟩
  rw [← hconnections, ← hnetwork]
  apply RefinementScene.joins_of_refine hnet _ hscored
  intro r hr
  rw [hnetwork]
  exact hoffers r (Itinerary.mem_rides.mp hr)

/-- The crossing lines, where the blue trip waits for the red one at C. -/
def waitingAtC : Draft :=
  { RefinementScene.crossingLines with
    rules := [⟨.tripStop "red 1" 2, .tripStop "blue 1" 1, .guaranteed⟩] }

/-- A question about the way from A to D, where waits do not weigh. -/
def unweighed : Request :=
  { fromAToD .forward true with refinement := { weighWaits := false } }

/-- Where the rides of an itinerary are left once its transfers have been chosen. -/
def leftOnceRefined (net : Network) (it : Itinerary) : Checked (List Nat) := do
  let scene ← RefinementScene.ofRequest net unweighed
  let scored ← scene.refine it
  return scored.itinerary.rides.map (·.alightPosition)

/-- The search changes from the red trip to the blue one as soon as it can, at B. The change is
moved to C, where the blue trip waits. -/
theorem route_refine_waitingAtC : ∃ net result it scene scored, waitingAtC.build = .ok net ∧
    net.route unweighed = .ok result ∧ it ∈ result.itineraries ∧
    RefinementScene.ofRequest net unweighed = .ok scene ∧
    it.rides.map (·.alightPosition) = [1, 2] ∧ scene.refine it = .ok scored ∧
    scored.itinerary.rides.map (·.alightPosition) = [2, 2] ∧
    it.MovesTransfers scored.itinerary ∧
    (∀ r ∈ scored.itinerary.rides, net.Offers unweighed.date r) ∧
    ∀ before first between second after,
      scored.itinerary.legs = before ++ .ride first :: (between ++ .ride second :: after) →
      (∀ leg ∈ between, leg.isRide = false) →
      (ConnectionScene.ofRequest net unweighed).Joins first between second := by
  have hfinds : waitingAtC.finds unweighed (fun net it => decide (
      it.rides.map (·.alightPosition) = [1, 2] ∧ leftOnceRefined net it = .ok [2, 2])) = true := by
    decide +kernel
  obtain ⟨net, result, it, hbuild, hroute, hit, hfacts⟩ := Draft.exists_of_finds hfinds
  obtain ⟨hearly, hfacts⟩ := of_decide_eq_true hfacts
  obtain ⟨scene, hscene, hfacts⟩ := bind_eq_ok.mp hfacts
  obtain ⟨scored, hscored, hlate⟩ := bind_eq_ok.mp hfacts
  have hlate : scored.itinerary.rides.map (·.alightPosition) = [2, 2] := Except.ok.inj hlate
  have hmoved : scored.itinerary ≠ it := by
    intro hsame
    rw [hsame, hearly] at hlate
    cases hlate
  obtain ⟨hmoves, hoffers, hjoins⟩ := (route_refine hbuild hroute hit hscene).of_ok hscored
  exact ⟨net, result, it, scene, scored, hbuild, hroute, hit, hscene, hearly, hscored, hlate,
    hmoves, hoffers, hjoins hmoved⟩

end JourneyPlanner
