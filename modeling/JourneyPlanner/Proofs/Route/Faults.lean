import JourneyPlanner.Proofs.Budget
import JourneyPlanner.Proofs.Refinement.Inside
import JourneyPlanner.Proofs.Route.Chunks
import JourneyPlanner.Proofs.Route.Coherence
import JourneyPlanner.Proofs.Route.Requested
import JourneyPlanner.Proofs.Search.Tables

/-!
# Faults of a search

How a search can end without a result: a number that leaves its width, or a time budget that is
spent. Everything that a search looks up in a table of a built network is there, and so are the
places where it writes, whatever the request asks for: legs at stops that do not exist, services
that do not run, rules about positions that no pattern has.

* `LabelScene.offers_of_itinerary`: an itinerary has rides that the network offers, and these are
  between positions of their patterns.
* `Network.yields_route_of_sound`, `Network.yields_search_of_sound`: without a time budget a search
  overflows or has a result.
* `Network.cuts_routeWithin`, `Network.cuts_searchWithin`: a budget only cuts a search short.
* `Deadline.Explains`: the faults of a search with a time budget.
* `search_faults`: all faults of a search.
-/

namespace JourneyPlanner

/-- A ride that a network offers is between positions of its pattern. -/
theorem Network.Offers.places {net : Network} {date : Date} {r : Ride} (h : net.Offers date r)
    (hnet : net.Sound) : net.Places r := by
  obtain ⟨p, t, hp, ht, htrip, -, hbefore, -, -, -, halight⟩ := h
  have hlt : r.alightPosition < p.length := (Array.getElem?_eq_some_iff.mp halight).1
  exact ⟨p, hp, (hnet.timetable_sound hp ht).fits r.trip htrip, hbefore.trans hlt, hlt⟩

/-! ### Itineraries -/

/-- The rides of the itinerary of a finish are offered by the network. -/
theorem LabelScene.offers_of_itinerary {c : LabelScene} {course : Course} {request : Request}
    {s : Labels} {finish : Finish} {it : Itinerary} (h : c.itinerary? s finish = .ok (some it))
    (hj : c.Justified course s) (hnet : course.network.Sound) (hfor : c.For course request) :
    ∀ r, .ride r ∈ it.legs → course.network.Offers request.date r := by
  intro r hr
  cases assembles_of_itinerary h with
  | forward hd htraces hnew =>
    obtain ⟨-, -, huntimed, -⟩ := Itinerary.new_eq_ok hnew
    have hmem := List.mem_reverse.mp (Itinerary.ride_mem_of_untimed huntimed hr)
    exact (htraces.offers hj hnet hfor.services_eq r hmem).1
  | reverse hd htraces _ hnew =>
    obtain ⟨-, -, huntimed, -⟩ := Itinerary.new_eq_ok hnew
    obtain ⟨r', constraint, hmem, rfl⟩ :=
      exists_of_mem_delayConstraints (Itinerary.ride_mem_of_untimed huntimed hr)
    exact (htraces.offers hj hnet hfor.services_eq r' hmem).1

namespace Network

variable {net : Network} {request : Request}

/-- The rides of the itineraries of a route are between positions of their patterns. -/
theorem places_of_mem_route {result : RouteResult} {it : Itinerary} (hnet : net.Sound)
    (hroute : net.route request = .ok result) (hit : it ∈ result.itineraries) :
    ∀ r, .ride r ∈ it.legs → net.Places r := by
  obtain ⟨tariff, bounds, times, progress, e, hrun, -, hitinerary⟩ :=
    exists_finish_of_mem_route hroute hit
  have hjustified := (yields_justified hnet).of_ok hrun
  exact fun r hr =>
    (LabelScene.offers_of_itinerary hitinerary hjustified hnet labelScene_for r hr).places hnet

/-! ### Routes -/

/-- A search from some start times overflows or has itineraries. -/
theorem yields_routeChunk_of_sound {tariff : Tariff} {bounds : Option Bounds} {times : List Time}
    (hnet : net.Sound) :
    Yields (net.routeChunk request (net.labelScene request tariff bounds) .unlimited times)
      fun _ => True := by
  have hnew : (net.labelScene request tariff bounds).InOrder (net.labelCourse request) 0
      (net.labelProgress request).state := ⟨Labels.new_sound, Labels.Coherent.new, rfl⟩
  refine (yields_justified hnet).bind fun progress hrun hjustified => ?_
  have hintact := (LabelScene.run_asserting rfl hnew).value progress hrun
  exact (hintact.yields_itineraries hjustified hnet labelScene_for).bind fun _ _ _ => trivial

/-- Without a time budget a route overflows or has a result. -/
theorem yields_route_of_sound (hnet : net.Sound) : Yields (net.route request) fun _ => True := by
  refine Tariff.yields_ofOptions.bind fun tariff _ _ => ?_
  refine Yields.bind (P := fun _ => True) trivial fun _ _ _ => ?_
  refine (yields_bounds hnet).bind fun bounds _ _ => ?_
  refine Bounds.yields_summary.bind fun summary _ _ => ?_
  refine Request.yields_startTimes.bind fun times _ _ => ?_
  refine Yields.ite (fun _ => trivial) fun _ => ?_
  exact (Yields.mapM fun _ _ => yields_routeChunk_of_sound hnet).bind fun _ _ _ => trivial

/-- Without a time budget the choice of transfers for a route overflows or has a result. -/
theorem yields_refineAll_of_route {scene : RefinementScene} {result : RouteResult}
    (hnet : net.Sound) (hscene : RefinementScene.ofRequest net request = .ok scene)
    (hroute : net.route request = .ok result) :
    Yields (scene.refineAll .unlimited result.itineraries) fun _ => True := by
  obtain ⟨tariff, -, hscene⟩ := bind_eq_ok.mp hscene
  cases hscene
  exact RefinementScene.yields_refineAll hnet fun it hit => places_of_mem_route hnet hroute hit

end Network

/-! ### Time budgets -/

/-- The moments at which the search for a route looks at its time budget. -/
inductive Request.Polls (request : Request) : Poll → Prop where
  | bounds : request.Polls .bounds
  | iteration {times : List Time} {time : Time} (htimes : request.startTimes = .ok times)
      (htime : time ∈ times) : request.Polls (.iteration time)

/-- The moments at which a search looks at its time budget: those of the search for a route, and one
for each itinerary of the route. -/
inductive Network.Polls (net : Network) (request : Request) : Poll → Prop where
  | route {poll : Poll} (hpoll : request.Polls poll) : net.Polls request poll
  | itinerary {result : RouteResult} {place : Nat} (hroute : net.route request = .ok result)
      (hplace : place < result.itineraries.length) : net.Polls request (.itinerary place)

/-- Why a search may have no result: an overflow, or a budget that is spent at one of the moments at
which the search looks at it, which makes it give up in the stage of this moment. -/
def Deadline.Explains (deadline : Deadline) (polls : Poll → Prop) (fault : Fault) : Prop :=
  fault = .overflow ∨
    ∃ poll, polls poll ∧ deadline.spent poll = true ∧ fault = .timeout poll.phase

theorem Deadline.Cuts.explains {α : Type} {deadline : Deadline} {polls : Poll → Prop}
    {x y : Checked α} {fault : Fault} (h : deadline.Cuts polls x y)
    (hy : Yields y fun _ => True) (hx : x = .error fault) : deadline.Explains polls fault := by
  obtain rfl | ⟨poll, hpoll, hspent, hcut⟩ := h
  · exact .inl (hy.of_error hx)
  · cases hx.symm.trans hcut
    exact .inr ⟨poll, hpoll, hspent, rfl⟩

namespace Network

variable {net : Network} {request : Request} {deadline : Deadline}

/-- A search for a route looks at its budget before its bounds are computed and before every
iteration of each of its chunks. -/
theorem cuts_routeWithin :
    deadline.Cuts request.Polls (net.routeWithin request deadline) (net.route request) := by
  refine .bind (.refl _) fun tariff _ => ?_
  refine .bind (Deadline.cuts_check .bounds) fun _ _ => ?_
  refine .bind (.refl _) fun bounds _ => ?_
  refine .bind (.refl _) fun summary _ => ?_
  refine .bind (.refl _) fun times htimes => ?_
  split
  · exact .refl _
  · refine .bind (.mapM fun chunk hchunk => ?_) fun _ _ => .refl _
    exact .bind (cuts_run fun time htime =>
      .iteration htimes (Request.mem_of_mem_timeChunks hchunk htime)) fun _ _ => .refl _

theorem cuts_searchWithin :
    deadline.Cuts (net.Polls request) (net.searchWithin request deadline)
      (net.search request) := by
  refine .bind (cuts_routeWithin.mono fun _ => .route) fun found hroute => ?_
  refine .bind (.refl _) fun scene _ => ?_
  refine .bind (RefinementScene.cuts_refineAll.mono ?_) fun _ _ => .refl _
  rintro _ ⟨place, hplace, rfl⟩
  exact .itinerary hroute hplace

/-- Without a time budget a search overflows or has a result. -/
theorem yields_search_of_sound (hnet : net.Sound) : Yields (net.search request) fun _ => True := by
  refine (yields_route_of_sound hnet).bind fun found hroute _ => ?_
  have hscene : Yields (RefinementScene.ofRequest net request) fun _ => True :=
    Tariff.yields_ofOptions.bind fun _ _ _ => trivial
  refine hscene.bind fun scene hscene _ => ?_
  exact (yields_refineAll_of_route hnet hscene hroute).bind fun _ _ _ => trivial

end Network

/-- Whatever a request asks for, a route in a network that was built has a result unless a number
leaves its width or its time budget is spent at one of the moments at which the search looks at it,
and so have the itineraries with their transfers chosen. A budget only decides whether there is a
result, not which one. What the searches on the way find is never written to a place that a table
does not have. -/
theorem search_faults {draft : Draft} {net : Network} (hbuild : draft.build = .ok net)
    (request : Request) (deadline : Deadline) :
    (∀ fault, net.routeWithin request deadline = .error fault →
      deadline.Explains request.Polls fault) ∧
    (∀ fault, net.searchWithin request deadline = .error fault →
      deadline.Explains (net.Polls request) fault) ∧
    (∀ result, net.routeWithin request deadline = .ok result → net.route request = .ok result) ∧
    (∀ result, net.searchWithin request deadline = .ok result →
      net.search request = .ok result) ∧
    (∀ fault, net.route request = .error fault → fault = .overflow) ∧
    (∀ fault, net.search request = .error fault → fault = .overflow) ∧ net.Confines request := by
  have hnet := Draft.build_sound hbuild
  have hroute : Yields (net.route request) fun _ => True := Network.yields_route_of_sound hnet
  have hsearch : Yields (net.search request) fun _ => True := Network.yields_search_of_sound hnet
  exact ⟨fun _ => Network.cuts_routeWithin.explains hroute,
    fun _ => Network.cuts_searchWithin.explains hsearch,
    fun _ => Network.cuts_routeWithin.of_ok, fun _ => Network.cuts_searchWithin.of_ok,
    fun _ => hroute.of_error, fun _ => hsearch.of_error, net.confines request⟩

def Deadline.spentAt (moment : Poll) : Deadline := ⟨fun poll => poll == moment⟩

/-- The two lines with one more rule, about positions that their patterns do not have. -/
def strayRules : Draft :=
  { twoLines with
    rules := twoLines.rules ++ [⟨.tripStop "red 1" 7, .tripStop "blue 2" 9, .notAllowed⟩] }

/-- A question about the way from A to D that also names stops which are not in the network. -/
def strayRequest : Request :=
  { fromAToD .forward true with
    access := [⟨0, 100, 200, false⟩, ⟨50, 100, 200, true⟩]
    egress := [⟨3, 200, 400, false⟩, ⟨99, 200, 400, false⟩]
    refinement := { weighWaits := false } }

/-- A rule about positions and legs at stops that do not exist have no effect: the traveller still
arrives at 38600. Only a spent budget keeps the search from saying so, before the bounds, before the
iteration or before the choice of transfers. -/
theorem search_faults_stray : ∃ net result scored, strayRules.build = .ok net ∧
    net.search strayRequest = .ok result ∧ scored ∈ result.itineraries ∧
    scored.itinerary.endTime = 38600 ∧
    (∀ poll ∈ [Poll.bounds, .iteration 35000, .itinerary 0],
      net.searchWithin strayRequest (.spentAt poll) = .error (.timeout poll.phase) ∧
      (Deadline.spentAt poll).Explains (net.Polls strayRequest) (.timeout poll.phase)) ∧
    (∀ fault, net.search strayRequest = .error fault → fault = .overflow) ∧
    net.Confines strayRequest := by
  have hanswers : strayRules.answers strayRequest
      (fun scored => scored.itinerary.endTime == 38600) = true := by
    decide +kernel
  have hbuilds : strayRules.builds (fun net => decide (∀ poll ∈ [Poll.bounds, .iteration 35000,
      .itinerary 0], (fun _ => ()) <$> net.searchWithin strayRequest (.spentAt poll) =
        .error (.timeout poll.phase))) = true := by
    decide +kernel
  obtain ⟨net, result, scored, hbuild, hsearch, hscored, hend⟩ := Draft.exists_of_answers hanswers
  obtain ⟨net', hbuild', htimeouts⟩ := Draft.exists_of_builds hbuilds
  cases hbuild.symm.trans hbuild'
  have hwithin : ∀ poll ∈ [Poll.bounds, .iteration 35000, .itinerary 0],
      net.searchWithin strayRequest (.spentAt poll) = .error (.timeout poll.phase) :=
    fun poll hpoll => map_eq_error.mp (of_decide_eq_true htimeouts poll hpoll)
  obtain ⟨-, -, -, -, -, hwithout, hconfines⟩ := search_faults hbuild strayRequest .unlimited
  refine ⟨net, result, scored, hbuild, hsearch, hscored, by simpa using hend, fun poll hpoll => ?_,
    hwithout, hconfines⟩
  obtain ⟨-, hexplains, -⟩ := search_faults hbuild strayRequest (.spentAt poll)
  exact ⟨hwithin poll hpoll, hexplains _ (hwithin poll hpoll)⟩

end JourneyPlanner
