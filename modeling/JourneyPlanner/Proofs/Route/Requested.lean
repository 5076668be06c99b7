import JourneyPlanner.Proofs.Refinement.Ends
import JourneyPlanner.Proofs.Route.Journeys

/-!
# The time that was asked for

No answer of a search departs before the time asked for, or arrives after it when the search goes
back in time, whatever the rules and the legs on board are, and whatever transfers are chosen.

The first ride of a trail is always boarded regularly, since rules are about changes. It leaves time
for the leg of the request, the walks and the slack before it, and this is what the itinerary takes
back.

* `Itinerary.KeepsTo`: an itinerary keeps to the time asked for.
* `LabelScene.Traces.time_eq`, `LabelScene.Traces.boards_later`: the times of a trail up to its
  first ride.
* `LabelScene.keepsTo_of_itinerary`: so does the itinerary of every finish.
* `search_keepsTo`: so do all answers of a search.
-/

namespace JourneyPlanner

/-- An itinerary departs no earlier than the time asked for, or arrives no later when the search
goes back in time. -/
structure Itinerary.KeepsTo (it : Itinerary) (request : Request) : Prop where
  departs : request.direction = .forward → request.time ≤ it.startTime
  arrives : request.direction = .reverse → it.endTime ≤ request.time

/-! ### Parts of trails -/

namespace Itinerary

variable {legs : List Leg} {board slack : Span} {time : Time}

theorem spans_reverse : spans legs.reverse = spans legs := by
  rw [spans, List.map_reverse, List.sum_reverse]
  rfl

/-- What is known of changes does not matter for times. -/
theorem timeAfter_delayed {found : Constraint} :
    timeAfter slack time (LabelScene.delayConstraints found legs) = timeAfter slack time legs := by
  induction legs generalizing time found with
  | nil => rfl
  | cons leg rest ih => cases leg <;> exact ih

end Itinerary

namespace LabelScene

variable {c : LabelScene} {course : Course} {request : Request} {s : Labels} {maxRounds : Nat}
  {id previous : LabelId} {label : Label} {access : Connector} {time : Time} {times : List Time}
  {legs walks : List Leg} {ride : SearchRide} {r : Ride}

/-- After a label without a ride before it, a trip is boarded regularly. -/
theorem Derived.boards_regularly (h : c.Derived course s label)
    (horigin : label.origin = .ride ride previous) (hnet : course.network.Sound) :
    ∃ before, s.arena[previous]? = some before ∧ (s.lastRide before = .ok none →
      ride.constraint = .regular ∧
        c.direction.NoLater (c.earliest before) (c.boardingOf (c.realRide ride label.stop))) := by
  obtain ⟨i, p, t, before, e, k, hp, ht, hbefore, hboardStop, -, -, -, -, hchoose, -, hride, -⟩ :=
    h.ride_inv horigin hnet
  refine ⟨before, hbefore, fun hfirst => ?_⟩
  have hposition := (Array.getElem?_eq_some_iff.mp hboardStop).1
  rcases choose_eq_some hchoose with ⟨found, rideEnd, hruled, -⟩ | ⟨-, rank, trip, hbest, he, -⟩
  · obtain ⟨_, _, _, -, hlast, -⟩ := ruled_eq_some hruled
    rw [hfirst] at hlast
    cases hlast
  · have htrip : ride.trip = trip := by rw [hride, he]; rfl
    constructor
    · rw [hride, he]
      rfl
    · rw [boardingOf_realRide, htrip]
      exact noLater_of_bestTrip (hnet.timetable_sound hp ht) hposition hbest

namespace Traces

/-- Before its first ride, a trail only adds the seconds of walks to the time of its start. -/
theorem time_eq (h : c.Traces s access time id walks) (hj : c.Justified course s)
    (hwalks : ∀ leg ∈ walks, leg.isRide = false) (hlabel : s.arena[id]? = some label) :
    label.time = c.direction.shift time (Itinerary.spans walks) ∧ s.lastRide label = .ok none := by
  induction h generalizing label with
  | access hlabel' horigin htime =>
    obtain rfl := Option.some.inj (hlabel.symm.trans hlabel')
    constructor
    · rw [htime, Itinerary.spans_nil, Direction.shift_zero]
    · rw [Labels.lastRide, horigin]
      rfl
  | ride => exact absurd (hwalks _ List.mem_cons_self) (by simp [Leg.isRide])
  | walk hlabel' horigin _ ih =>
    obtain rfl := Option.some.inj (hlabel.symm.trans hlabel')
    obtain ⟨before, hbefore, -, hstroll⟩ := (hj.label hlabel).walks horigin
    obtain ⟨htime, hlast⟩ := ih (fun leg hleg => hwalks leg (List.mem_cons_of_mem _ hleg)) hbefore
    constructor
    · rw [hstroll.time_eq, htime, Direction.shift_shift, Itinerary.spans_cons, add_comm]
      rfl
    · rw [Labels.lastRide, horigin]
      unfold Labels.lastRide at hlast
      simp only [Labels.label, fetch_of_getElem? hbefore, bind, Except.bind]
      cases hride : before.origin with
      | access | walk => rfl
      | ride =>
        rw [hride] at hlast
        cases hlast

/-- The first ride of a trail leaves time for what comes before it. -/
theorem boards_later (h : c.Traces s access time id (.ride r :: walks)) (hj : c.Justified course s)
    (hnet : course.network.Sound) (hslacks : c.slacks.Nonneg)
    (hwalks : ∀ leg ∈ walks, leg.isRide = false) :
    c.direction.NoLater
      (c.direction.shift time (Itinerary.spans walks + c.slacks.beforeBoarding c.direction))
      (c.boardingOf r) := by
  obtain ⟨label, ride, previous, hlabel, horigin, rfl, hbefore⟩ := h.ride_inv
  obtain ⟨before, hprevious, hboards⟩ := (hj.label hlabel).boards_regularly horigin hnet
  obtain ⟨htime, hfirst⟩ := hbefore.time_eq hj hwalks hprevious
  refine Direction.NoLater.trans ?_ (hboards hfirst).2
  rw [earliest, htime, Direction.shift_shift]
  apply Direction.NoLater.refl.shift
  have htransfer := hslacks.transfer
  split <;> linarith

/-- No rule is about the first ride of a trail. -/
theorem first_regular (h : c.Traces s access time id (.ride r :: walks)) (hj : c.Justified course s)
    (hnet : course.network.Sound) (hwalks : ∀ leg ∈ walks, leg.isRide = false) :
    r.constraint = .regular := by
  obtain ⟨label, ride, previous, hlabel, horigin, rfl, hbefore⟩ := h.ride_inv
  obtain ⟨before, hprevious, hboards⟩ := (hj.label hlabel).boards_regularly horigin hnet
  have hregular := (hboards (hbefore.time_eq hj hwalks hprevious).2).1
  unfold realRide
  cases c.direction with
  | forward => exact hregular
  | reverse => exact hregular

end Traces

/-! ### Itineraries of finishes -/

/-- A trail that starts at `time`, in the order of the traveller, sets out no earlier than its leg
of the request asks for. -/
theorem Traces.start_later {it : Itinerary} {departure start : Time}
    (h : c.Traces s access time id legs) (hj : c.Justified course s)
    (hnet : course.network.Sound) (hslacks : c.slacks.Nonneg) (hd : c.direction = .forward)
    (htime : time = start + access.duration) (hdeparture : departure = time - access.duration)
    (haccess : it.access.leg = access)
    (huntimed : it.legs.map Leg.untimed = legs.reverse.map Leg.untimed)
    (htimes : it.Times c.slacks departure) : start ≤ it.startTime := by
  have hstart := htimes.start
  rw [haccess, Itinerary.readyBy_congr huntimed] at hstart
  rcases Itinerary.walks_or_lastRide legs with hwalks | ⟨after, r, walks, rfl, hwalks⟩
  · rw [Itinerary.readyBy_eq_none fun leg hleg => hwalks leg (List.mem_reverse.mp hleg),
      Option.getD_none] at hstart
    linarith
  · have hreverse : (after ++ .ride r :: walks).reverse =
        walks.reverse ++ .ride r :: after.reverse := by simp
    rw [hreverse, Itinerary.readyBy_ride fun leg hleg => hwalks leg (List.mem_reverse.mp hleg),
      Option.getD_some, Itinerary.spans_reverse] at hstart
    obtain ⟨id', hfirst⟩ := h.suffix
    have hboards := hfirst.boards_later hj hnet hslacks hwalks
    rw [boardingOf, hd, Direction.noLater_forward] at hboards
    change time + (Itinerary.spans walks + c.slacks.board) ≤ r.departs at hboards
    linarith

/-- A trail that goes back from `time`, in the order of the traveller, is over no later than its leg
of the request allows. -/
theorem Traces.end_sooner {it : Itinerary} {departure start : Time}
    (h : c.Traces s access time id legs) (hj : c.Justified course s)
    (hnet : course.network.Sound) (hslacks : c.slacks.Nonneg) (hd : c.direction = .reverse)
    (htime : time = start - access.duration) (hlabel : s.arena[id]? = some label)
    (hdeparture : departure = label.time - it.access.leg.duration)
    (hegress : it.egress.leg = access)
    (huntimed : it.legs.map Leg.untimed = (delayConstraints .regular legs).map Leg.untimed)
    (htimes : it.Times c.slacks departure) : it.endTime ≤ start := by
  have hend := htimes.ending
  rw [hegress, Itinerary.timeAfter_congr huntimed, Itinerary.timeAfter_delayed] at hend
  rcases Itinerary.walks_or_lastRide legs with hwalks | ⟨after, r, walks, rfl, hwalks⟩
  · have hdelayed : delayConstraints .regular (legs ++ []) = legs ++ [] :=
      delayConstraints_walks hwalks
    rw [List.append_nil] at hdelayed
    have hready : Itinerary.readyBy c.slacks.board it.legs = none := by
      rw [Itinerary.readyBy_congr huntimed, hdelayed, Itinerary.readyBy_eq_none hwalks]
    have hstart := htimes.start
    rw [hready, Option.getD_none] at hstart
    have htime' := (h.time_eq hj hwalks hlabel).1
    rw [hd] at htime'
    change label.time = time - Itinerary.spans legs at htime'
    rw [Itinerary.timeAfter_walks hwalks] at hend
    linarith
  · rw [Itinerary.timeAfter_ride 0, Itinerary.timeAfter_cons,
      Itinerary.timeAfter_walks hwalks] at hend
    change it.endTime = r.arrives + c.slacks.alight + _ + _ at hend
    obtain ⟨id', hfirst⟩ := h.suffix
    have hboards := hfirst.boards_later hj hnet hslacks hwalks
    rw [boardingOf, hd, Direction.noLater_reverse] at hboards
    change r.arrives ≤ time - (Itinerary.spans walks + c.slacks.alight) at hboards
    linarith

/-- The itinerary of a finish keeps to the time asked for, and has the times that its parts ask
for. -/
theorem keepsTo_of_itinerary {it : Itinerary} {e : Finish × JourneyCriteria}
    (h : c.itinerary? s e.1 = .ok (some it)) (hj : c.Justified course s)
    (hnet : course.network.Sound) (hfor : c.For course request)
    (hslacks : request.slacks.Nonneg) (hdeparts : c.Departs s times)
    (htimes : ∀ start ∈ times, request.direction.NoLater request.time start) :
    it.KeepsTo request ∧ ∃ departure, it.Times request.slacks departure := by
  rw [← hfor.slacks_eq] at hslacks ⊢
  rw [← hfor.direction_eq] at htimes
  cases assembles_of_itinerary h with
  | forward hd htraces hnew =>
    obtain ⟨start, hmem, htime⟩ := htraces.exists_start hdeparts
    have hlater := htimes start hmem
    obtain ⟨haccess, hegress, huntimed, -, hplaced⟩ := Itinerary.new_eq_ok hnew
    rw [hd] at htime hlater
    refine ⟨⟨fun _ => ?_, fun hreverse => ?_⟩, _, hplaced⟩
    · exact (Direction.noLater_forward.mp hlater).trans (htraces.start_later hj hnet hslacks hd
        htime rfl haccess huntimed hplaced)
    · rw [← hfor.direction_eq, hd] at hreverse
      cases hreverse
  | reverse hd htraces hlast hnew =>
    obtain ⟨start, hmem, htime⟩ := htraces.exists_start hdeparts
    have hlater := htimes start hmem
    obtain ⟨haccess, hegress, huntimed, -, hplaced⟩ := Itinerary.new_eq_ok hnew
    rw [hd] at htime hlater
    refine ⟨⟨fun hforward => ?_, fun _ => ?_⟩, _, hplaced⟩
    · rw [← hfor.direction_eq, hd] at hforward
      cases hforward
    · exact (htraces.end_sooner hj hnet hslacks hd htime hlast (by rw [haccess]) hegress
        huntimed hplaced).trans (Direction.noLater_reverse.mp hlater)

end LabelScene

/-! ### Answers of a search -/

/-- Every itinerary of a route keeps to the time asked for, and has the times that its parts ask
for. -/
theorem Network.keepsTo_of_mem_route {net : Network} {request : Request} {result : RouteResult}
    {it : Itinerary} (hnet : net.Sound) (hslacks : request.slacks.Nonneg)
    (hroute : net.route request = .ok result) (hit : it ∈ result.itineraries) :
    it.KeepsTo request ∧ ∃ departure, it.Times request.slacks departure := by
  obtain ⟨tariff, bounds, all, times, progress, e, hall, htimes, hrun, -, hitinerary⟩ :=
    exists_chunk_of_mem_route hroute hit
  obtain ⟨s, hiterations, -, harena, -⟩ := (yields_search hnet).of_ok hrun
  rw [← LabelScene.itinerary?_congr harena] at hitinerary
  have hlater := (Request.yields_startTimes.of_ok hall).2
  exact LabelScene.keepsTo_of_itinerary hitinerary
    (hiterations.justified Labels.new_sound LabelScene.justified_new) hnet labelScene_for hslacks
    (hiterations.departs LabelScene.departs_new)
    fun start hstart => hlater start (Request.mem_of_mem_timeChunks htimes hstart)

/-- No answer of a search departs before the time asked for, or arrives after it when the search
goes back in time, even once its transfers have been chosen. -/
theorem search_keepsTo {draft : Draft} {net : Network} {request : Request} {result : SearchResult}
    {scored : ScoredItinerary} (hbuild : draft.build = .ok net) (hslacks : request.slacks.Nonneg)
    (hsearch : net.search request = .ok result) (hscored : scored ∈ result.itineraries) :
    scored.itinerary.KeepsTo request := by
  obtain ⟨found, hroute, hsearch⟩ := bind_eq_ok.mp hsearch
  obtain ⟨scene, hscene, hsearch⟩ := bind_eq_ok.mp hsearch
  obtain ⟨refined, hrefined, hsearch⟩ := bind_eq_ok.mp hsearch
  cases hsearch
  obtain ⟨tariff, -, hscene⟩ := bind_eq_ok.mp hscene
  cases hscene
  obtain ⟨it, hit, hrefine⟩ := RefinementScene.exists_of_mem_refineAll hrefined hscored
  obtain ⟨hkeeps, departure, htimes⟩ :=
    Network.keepsTo_of_mem_route (Draft.build_sound hbuild) hslacks hroute hit
  obtain ⟨hstart, hend⟩ := RefinementScene.refine_ends htimes hrefine
  constructor
  · intro hd
    rw [hstart]
    exact hkeeps.departs hd
  · intro hd
    rw [hend]
    exact hkeeps.arrives hd

/-- Some answer to a request in the network of a draft has a property. -/
def Draft.answers (draft : Draft) (request : Request) (P : ScoredItinerary → Bool) : Bool :=
  match draft.build with
  | .error _ => false
  | .ok net =>
    match net.search request with
    | .error _ => false
    | .ok result => result.itineraries.any P

theorem Draft.exists_of_answers {draft : Draft} {request : Request} {P : ScoredItinerary → Bool}
    (h : draft.answers request P = true) :
    ∃ net result scored, draft.build = .ok net ∧ net.search request = .ok result ∧
      scored ∈ result.itineraries ∧ P scored = true := by
  unfold answers at h
  cases hbuild : draft.build with
  | error fault =>
    rw [hbuild] at h
    cases h
  | ok net =>
    rw [hbuild] at h
    cases hsearch : net.search request with
    | error fault =>
      simp only [hsearch] at h
      cases h
    | ok result =>
      simp only [hsearch] at h
      obtain ⟨scored, hscored, hP⟩ := List.any_eq_true.mp h
      exact ⟨net, result, scored, rfl, hsearch, hscored, hP⟩

/-- Asked to arrive by 40000, the traveller takes the blue trip that waits and is there at 38600,
once the transfers have been chosen. -/
theorem search_keepsTo_twoLines : ∃ net result scored, twoLines.build = .ok net ∧
    (fromAToD .reverse true).slacks.Nonneg ∧
    net.search { fromAToD .reverse true with refinement := { weighWaits := false } } = .ok result ∧
    scored ∈ result.itineraries ∧ scored.itinerary.endTime = 38600 ∧
    scored.itinerary.KeepsTo
      { fromAToD .reverse true with refinement := { weighWaits := false } } := by
  have hanswers : twoLines.answers
      { fromAToD .reverse true with refinement := { weighWaits := false } }
      (fun scored => scored.itinerary.endTime == 38600) = true := by
    decide +kernel
  have hslacks : (fromAToD .reverse true).slacks.Nonneg := ⟨by decide, by decide, by decide⟩
  obtain ⟨net, result, scored, hbuild, hsearch, hscored, hend⟩ := Draft.exists_of_answers hanswers
  exact ⟨net, result, scored, hbuild, hslacks, hsearch, hscored, by simpa using hend,
    search_keepsTo hbuild hslacks hsearch hscored⟩

end JourneyPlanner
