import JourneyPlanner.Proofs.Route.Criteria
import JourneyPlanner.Proofs.Route.Soundness

/-!
# The limit on transfers

A search makes one round more than the transfers it is allowed, and every ride of an itinerary
takes a round: those on trips, and a leg on board where the search starts. A leg on board where the
search ends is a ride after the last round, so that it may be one more than the limit has room for.

* `Itinerary.endLeg`: the connector where a search ends.
* `LabelScene.Traces.round_eq`: the round of a label is the number of rides on the way to it.
* `LabelScene.transferCount_of_itinerary`: the transfers of the itinerary of a finish.
* `route_transferCount_le`: the itineraries of a route keep to the limit, but for the leg on board
  where the search ends.
-/

namespace JourneyPlanner

def Itinerary.endLeg (it : Itinerary) (d : Direction) : Connector :=
  match d with
  | .forward => it.egress.leg
  | .reverse => it.access.leg

namespace LabelScene

variable {c : LabelScene} {course : Course} {request : Request} {s : Labels} {id : LabelId}
  {label : Label} {access : Connector} {time : Time} {legs : List Leg} {it : Itinerary}
  {e : Finish × JourneyCriteria}

/-- The round of a label is the number of rides on the way to it, a leg on board being one. -/
theorem Traces.round_eq (h : c.Traces s access time id legs) (hj : c.Justified course s)
    (hnet : course.network.Sound) (hfor : c.For course request)
    (hlabel : s.arena[id]? = some label) :
    label.round = Itinerary.ridesIn legs + access.onBoard.toNat := by
  induction h generalizing label with
  | access hlabel' horigin =>
    obtain rfl := Option.some.inj (hlabel.symm.trans hlabel')
    cases hj.label hlabel with
    | access =>
      obtain rfl := Origin.access.inj horigin
      exact (Nat.zero_add _).symm
    | ride | walk => cases horigin
  | ride hlabel' horigin _ ih =>
    obtain rfl := Option.some.inj (hlabel.symm.trans hlabel')
    obtain ⟨before, hbefore, hadds⟩ := (hj.label hlabel).adds horigin hnet hfor
    rw [hadds.round_eq, ih hbefore, Itinerary.ridesIn_ride]
    omega
  | walk hlabel' horigin _ ih =>
    obtain rfl := Option.some.inj (hlabel.symm.trans hlabel')
    obtain ⟨before, hbefore, -, hstroll⟩ := (hj.label hlabel).walks horigin
    rw [hstroll.round_eq, ih hbefore, Itinerary.ridesIn_walk]

/-- The itinerary of a finish ends with its leg, and has a transfer for every round of its label but
the first, and one more for a leg on board. -/
theorem transferCount_of_itinerary (h : c.itinerary? s e.1 = .ok (some it))
    (he : e ∈ s.finishes.entries) (hj : c.Justified course s) (hnet : course.network.Sound)
    (hfor : c.For course request) :
    ∃ label, s.arena[e.1.label]? = some label ∧ it.endLeg c.direction = e.1.leg ∧
      it.transferCount = label.round + e.1.leg.onBoard.toNat - 1 := by
  obtain ⟨label, hlabel, -⟩ := hj.finish he
  refine ⟨label, hlabel, ?_⟩
  have hcount : it.rideCount = Itinerary.ridesIn it.legs := rfl
  rw [Itinerary.transferCount, hcount]
  cases assembles_of_itinerary h with
  | forward hd htraces hnew =>
    obtain ⟨haccess, hleg, hlegs, -⟩ := Itinerary.new_eq_ok hnew
    rw [hd]
    refine ⟨hleg, ?_⟩
    rw [haccess, hleg, Itinerary.ridesIn_congr hlegs, Itinerary.ridesIn_reverse,
      htraces.round_eq hj hnet hfor hlabel]
  | reverse hd htraces _ hnew =>
    obtain ⟨haccess, hleg, hlegs, -⟩ := Itinerary.new_eq_ok hnew
    rw [hd]
    refine ⟨haccess, ?_⟩
    rw [haccess, hleg, Itinerary.ridesIn_congr hlegs, ridesIn_delayed,
      htraces.round_eq hj hnet hfor hlabel]
    omega

end LabelScene

/-- The labels of a run belong to the rounds that it may make. -/
theorem Network.yields_round_le {net : Network} {request : Request} {tariff : Tariff}
    {bounds : Option Bounds} {times : List Time} (hnet : net.Sound) :
    Yields (run (labelScheme (net.labelScene request tariff bounds)) (net.labelCourse request)
      .unlimited (net.labelProgress request) times) fun progress =>
      ∀ {id : LabelId} {label : Label}, progress.state.arena[id]? = some label →
        label.round ≤ request.maxRounds := by
  refine (yields_search hnet).mono ?_
  rintro progress - ⟨s, -, hsound, harena, -⟩
  rw [← harena]
  exact hsound.label_round_le

/-- An itinerary of a route has no more transfers than the request allows, unless the search ends
with a leg on board, which may be one transfer more. -/
theorem route_transferCount_le {draft : Draft} {net : Network} {request : Request}
    {result : RouteResult} {it : Itinerary} (hbuild : draft.build = .ok net)
    (hroute : net.route request = .ok result) (hit : it ∈ result.itineraries) :
    it.transferCount ≤ request.maxTransfers + (it.endLeg request.direction).onBoard.toNat := by
  have hnet := Draft.build_sound hbuild
  obtain ⟨tariff, bounds, times, progress, e, hrun, he, hitinerary⟩ :=
    Network.exists_finish_of_mem_route hroute hit
  have hjustified := (Network.yields_justified hnet).of_ok hrun
  obtain ⟨label, hlabel, hend, hcount⟩ := LabelScene.transferCount_of_itinerary hitinerary he
    hjustified hnet Network.labelScene_for
  have hround := (Network.yields_round_le hnet).of_ok hrun hlabel
  have hmaxRounds : request.maxRounds ≤ request.maxTransfers + 1 := min_le_left _ _
  change it.endLeg request.direction = e.1.leg at hend
  rw [hend, hcount]
  omega

/-- Where no transfer is allowed, a taxi that waits for the red line still makes one. -/
theorem route_transferCount_le_taxi : ∃ net result it,
    let taxi : Connector := ⟨1, 300, 0, true⟩
    let request := { fromAToD .forward true with
      egress := [⟨1, 900, 0, false⟩, taxi]
      maxTransfers := 0 }
    twoLines.build = .ok net ∧ net.route request = .ok result ∧ it ∈ result.itineraries ∧
      it.endLeg request.direction = taxi ∧ it.transferCount = request.maxTransfers + 1 ∧
      it.transferCount ≤ request.maxTransfers + (it.endLeg request.direction).onBoard.toNat := by
  let taxi : Connector := ⟨1, 300, 0, true⟩
  let request := { fromAToD .forward true with
    egress := [⟨1, 900, 0, false⟩, taxi]
    maxTransfers := 0 }
  have hfinds : twoLines.finds request (fun _ it => decide (it.endLeg request.direction = taxi ∧
      it.transferCount = request.maxTransfers + 1)) = true := by
    decide +kernel
  obtain ⟨net, result, it, hbuild, hroute, hit, htaxi⟩ := Draft.exists_of_finds hfinds
  obtain ⟨htaxi, hcount⟩ := of_decide_eq_true htaxi
  exact ⟨net, result, it, hbuild, hroute, hit, htaxi, hcount,
    route_transferCount_le hbuild hroute hit⟩

end JourneyPlanner
