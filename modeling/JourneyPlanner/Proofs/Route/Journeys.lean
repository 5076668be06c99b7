import JourneyPlanner.Proofs.Route.Completeness
import JourneyPlanner.Proofs.Search.Extensions

/-!
# The journeys of a route

Without rules, what a route that departs after a time answers are journeys that need no rules: the
itineraries that are found are among those that none of them is worse than.

* `LabelScene.Traces.regular`: the rides of a trail are boarded regularly.
* `LabelScene.Traces.boards_after`: the first ride of a trail leaves time for the leg before it.
* `LabelScene.isJourney_of_itinerary`: the itinerary of a finish is a journey.
* `Network.isJourney_of_mem_route`: the itineraries of a route are journeys.
-/

namespace JourneyPlanner

namespace LabelScene

variable {c : LabelScene} {course : Course} {request : Request} {s : Labels} {id : LabelId}
  {access : Connector} {time : Time} {times : List Time} {legs rest : List Leg} {r : Ride}

/-- Without rules the rides of a trail are boarded regularly. -/
theorem Traces.regular (h : c.Traces s access time id legs) (hj : c.Justified course s)
    (hnet : course.network.Sound) (hfor : c.For course request) (hrules : c.rules = none) :
    ∀ r, .ride r ∈ legs → r.constraint = .regular := by
  induction h with
  | access => simp
  | ride hlabel horigin _ ih =>
    intro r hr
    rcases List.mem_cons.mp hr with heq | hr
    · obtain rfl := Leg.ride.inj heq
      obtain ⟨before, -, hadds⟩ := (hj.label hlabel).adds horigin hnet hfor
      exact (hadds.unruled hrules).1
    · exact ih r hr
  | walk _ _ _ ih =>
    intro r hr
    rcases List.mem_cons.mp hr with heq | hr
    · cases heq
    · exact ih r hr

/-- A trail starts at a start time. -/
theorem Traces.exists_start (h : c.Traces s access time id legs) (hdeparts : c.Departs s times) :
    ∃ start ∈ times, time = c.direction.shift start access.duration := by
  obtain ⟨_, label, hlabel, horigin, rfl⟩ := h.exists_origin
  exact hdeparts hlabel horigin

/-- Without rules the first ride of a trail leaves time for the leg before it. -/
theorem Traces.boards_after (h : c.Traces s access time id (rest ++ [.ride r]))
    (hj : c.Justified course s) (hnet : course.network.Sound) (hfor : c.For course request)
    (hrules : c.rules = none) (haccess : ∀ leg ∈ course.access, leg.onBoard = false) :
    c.direction.NoLater (c.direction.shift time (c.slacks.beforeBoarding c.direction))
      (c.boardingOf r) := by
  obtain ⟨id', hfirst⟩ := h.suffix
  obtain ⟨label, ride, previous, hlabel, horigin, rfl, hstart⟩ := hfirst.ride_inv
  obtain ⟨before, hbefore, hadds⟩ := (hj.label hlabel).adds horigin hnet hfor
  have hinTime := (hadds.unruled hrules).2
  cases hstart with
  | access hbefore' horigin' htime =>
    obtain rfl := Option.some.inj (hbefore.symm.trans hbefore')
    have hstarts := (hj.label hbefore).starts horigin' haccess
    rwa [earliest, if_pos hstarts.round_eq, Int.add_zero, htime] at hinTime

/-- Where no rules apply, the itinerary of a finish is a journey if its parts are short, and it has
the end and the transfers of that journey. -/
theorem isJourney_of_itinerary {it : Itinerary} {e : Finish × JourneyCriteria}
    (h : c.itinerary? s e.1 = .ok (some it)) (he : e ∈ s.finishes.entries)
    (hj : c.Justified course s) (hnet : course.network.Sound) (hfor : c.For course request)
    (hd : c.direction = .forward) (hrules : c.rules = none) (hdeparts : c.Departs s times)
    (htimes : ∀ start ∈ times, request.time ≤ start)
    (haccess : ∀ leg ∈ course.access, leg.onBoard = false)
    (hegress : ∀ leg ∈ c.egress, leg.onBoard = false)
    (hshort : ∀ rest, rest <:+ it.legs →
      Itinerary.spans rest + it.egress.leg.duration < unreached) :
    course.network.IsJourney request it.access.leg it.legs it.egress.leg ∧
      it.endTime = request.endOf it.access.leg it.legs it.egress.leg ∧
      it.transferCount = Itinerary.ridesIn it.legs - 1 := by
  have hreal := isReal_of_rules h he hj hnet hfor (.inl hrules)
  obtain ⟨label, hlabel, hleg, -, hrides, -⟩ := hj.finish he
  have hwalks := hegress _ hleg
  have honBoard : label.onBoard = true := by simpa [hwalks] using hrides
  cases assembles_of_itinerary h with
  | reverse hd' =>
    rw [hd] at hd'
    cases hd'
  | @forward access _ legs _ htraces hnew =>
    have hstart := haccess _ (htraces.access_mem hj)
    rcases htraces.tallies hj hnet hfor hd haccess hlabel with ⟨hstarts, -⟩ | ⟨first, htallies⟩
    · rw [hstarts.walks] at honBoard
      cases honBoard
    obtain ⟨parts, hparts⟩ := List.getLast?_eq_some_iff.mp htallies.starts
    have hreverse : legs.reverse = .ride first :: parts.reverse := by
      rw [hparts, List.reverse_append]
      rfl
    have htimed : Itinerary.AllTimed legs.reverse := fun r hr =>
      htallies.timed r (List.mem_reverse.mp hr)
    rw [hreverse] at hnew htimed
    obtain ⟨haccess', hegress', huntimed, -, hend, -⟩ :=
      (Itinerary.yields_new_ride hstart htimed).of_ok hnew
    -- the ride with which the itinerary starts is that with which the trail starts
    obtain ⟨start, hmem, htime⟩ := htraces.exists_start hdeparts
    have hfirst : request.time + it.access.leg.duration + request.slacks.board ≤
        first.departs := by
      rw [hparts] at htraces
      have hafter := htraces.boards_after hj hnet hfor hrules haccess
      rw [htime, boardingOf, hd, Direction.noLater_forward, hfor.slacks_eq] at hafter
      have hlater := htimes start hmem
      change start + access.duration + request.slacks.board ≤ _ at hafter
      rw [haccess']
      linarith
    refine ⟨⟨hreal, fun r hr => ?_, fun r rest hlegs => ?_, hshort⟩, ?_, ?_⟩
    · have hmem := Itinerary.ride_mem_of_untimed huntimed hr
      rw [← hreverse] at hmem
      exact htraces.regular hj hnet hfor hrules r (List.mem_reverse.mp hmem)
    · rw [hlegs] at huntimed
      obtain rfl := Leg.ride.inj (List.cons.inj huntimed).1
      exact hfirst
    · have hafter : Itinerary.timeAfter request.slacks.alight
          (request.time + it.access.leg.duration) it.legs = Itinerary.timeAfter
          request.slacks.alight (request.time + it.access.leg.duration)
          (.ride first :: parts.reverse) :=
        Itinerary.foldl_untimed (fun _ leg => by cases leg <;> rfl) huntimed _
      rw [hend, hegress', hfor.slacks_eq, Request.endOf, hafter]
      rfl
    · exact transferCount_eq (by rw [haccess', hstart]) (by rw [hegress', hwalks]) rfl

end LabelScene

/-- Without rules, what a route that departs after a time answers are journeys, if their parts are
short. -/
theorem Network.isJourney_of_mem_route {net : Network} {request : Request} {result : RouteResult}
    {it : Itinerary} (hnet : net.Sound) (hd : request.direction = .forward)
    (hrules : request.rules net = none) (haccess : ∀ leg ∈ request.access, leg.onBoard = false)
    (hegress : ∀ leg ∈ request.egress, leg.onBoard = false)
    (hroute : net.route request = .ok result) (hit : it ∈ result.itineraries)
    (hshort : ∀ rest, rest <:+ it.legs →
      Itinerary.spans rest + it.egress.leg.duration < unreached) :
    net.IsJourney request it.access.leg it.legs it.egress.leg ∧
      it.endTime = request.endOf it.access.leg it.legs it.egress.leg ∧
      it.transferCount = Itinerary.ridesIn it.legs - 1 := by
  obtain ⟨tariff, bounds, all, times, progress, e, hall, htimes, hrun, he, hitinerary⟩ :=
    exists_chunk_of_mem_route hroute hit
  obtain ⟨haccess', hegress'⟩ := Request.walks_of_walks haccess hegress
  obtain ⟨s, hiterations, -, harena, hfinishes⟩ := (yields_search hnet).of_ok hrun
  rw [← LabelScene.itinerary?_congr harena] at hitinerary
  rw [← hfinishes] at he
  have hlater := (Request.yields_startTimes.of_ok hall).2
  rw [hd] at hlater
  exact LabelScene.isJourney_of_itinerary hitinerary he
    (hiterations.justified Labels.new_sound LabelScene.justified_new) hnet labelScene_for hd hrules
    (hiterations.departs LabelScene.departs_new)
    (fun start hstart => Direction.noLater_forward.mp
      (hlater start (Request.mem_of_mem_timeChunks htimes hstart))) haccess' hegress' hshort

end JourneyPlanner
