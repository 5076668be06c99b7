import JourneyPlanner.Proofs.Route.Trails
import JourneyPlanner.Proofs.Search.Remaining

/-!
# What a route answers

The itineraries of a route are those of the finishes of its runs, one run for every chunk of start
times.

* `LabelScene.For`: a scene and a course belong to a request.
* `Network.route_inv`: a route answers the best of what its searches find.
* `Network.exists_chunk_of_mem_route`, `Network.exists_finish_of_mem_route`: an itinerary of a route
  is that of a finish of a run.
* `Network.yields_search`: a run makes the iterations from its start times.
* `Network.yields_justified`: the labels and finishes of a run come from legs of the request.
* `Draft.exists_of_finds`: what a search in the network of a draft finds.
-/

namespace JourneyPlanner

/-- A scene and a course belong to a request. -/
structure LabelScene.For (c : LabelScene) (course : Course) (request : Request) : Prop where
  direction_eq : c.direction = request.direction
  slacks_eq : c.slacks = request.slacks
  definitive_eq : c.definitive = request.definitive
  services_eq : c.services = course.network.servicesOn request.date
  egress_eq : c.egress = request.searchEgress
  access_eq : course.access = request.searchAccess

namespace Network

variable {net : Network} {request : Request} {tariff : Tariff} {bounds : Option Bounds}

theorem labelScene_for :
    (net.labelScene request tariff bounds).For (net.labelCourse request) request :=
  ⟨rfl, rfl, rfl, rfl, rfl, rfl⟩

theorem labelScene_of : (net.labelScene request tariff bounds).Of net where
  stopCount_eq := rfl
  rules_eq _ h := rules_of_request h

/-- A route answers the best of what the searches of its chunks find, if it makes any. -/
theorem route_inv {result : RouteResult} (h : net.route request = .ok result) :
    ∃ tariff bounds times found, request.startTimes = .ok times ∧
      (found = [] ∨ (request.timeChunks times).mapM (net.routeChunk request
        (net.labelScene request tariff (some bounds)) .unlimited) = .ok found) ∧
      result.itineraries = (Front.ofList request.direction.dominatesJourney <|
        found.flatMap fun part => part.1.map fun it =>
          (it, it.criteria request.direction)).elements := by
  rw [route, routeWithin] at h
  obtain ⟨tariff, -, h⟩ := bind_eq_ok.mp h
  obtain ⟨_, -, h⟩ := bind_eq_ok.mp h
  obtain ⟨bounds, -, h⟩ := bind_eq_ok.mp h
  obtain ⟨summary, -, h⟩ := bind_eq_ok.mp h
  obtain ⟨times, htimes, h⟩ := bind_eq_ok.mp h
  refine ⟨tariff, bounds, times, ?_⟩
  cases hreachable : summary.reachable with
  | false =>
    simp only [hreachable] at h
    cases h
    exact ⟨[], htimes, .inl rfl, rfl⟩
  | true =>
    simp only [hreachable, Bool.not_true, Bool.false_eq_true, if_false] at h
    obtain ⟨found, hfound, h⟩ := bind_eq_ok.mp h
    cases h
    exact ⟨found, htimes, .inr hfound, rfl⟩

/-- An itinerary of a route is that of a finish of the run from one of the chunks of start times. -/
theorem exists_chunk_of_mem_route {result : RouteResult} {it : Itinerary}
    (h : net.route request = .ok result) (hit : it ∈ result.itineraries) :
    ∃ tariff bounds all times progress e, request.startTimes = .ok all ∧
      times ∈ request.timeChunks all ∧
      run (labelScheme (net.labelScene request tariff (some bounds))) (net.labelCourse request)
        .unlimited (net.labelProgress request) times = .ok progress ∧
      e ∈ progress.state.finishes.entries ∧
      (net.labelScene request tariff (some bounds)).itinerary? progress.state e.1 =
        .ok (some it) := by
  obtain ⟨tariff, bounds, all, results, hall, hresults, hbest⟩ := route_inv h
  rw [hbest] at hit
  obtain ⟨e, he, rfl⟩ := List.mem_map.mp hit
  obtain ⟨chunk, hchunk, he⟩ := List.mem_flatMap.mp (Front.mem_ofList he)
  obtain ⟨it, hit, rfl⟩ := List.mem_map.mp he
  rcases hresults with rfl | hresults
  · cases hchunk
  obtain ⟨times, htimes, hroute⟩ := exists_of_mem_mapM hresults hchunk
  obtain ⟨progress, hprogress, hroute⟩ := bind_eq_ok.mp hroute
  obtain ⟨itineraries, hitineraries, hroute⟩ := bind_eq_ok.mp hroute
  cases hroute
  obtain ⟨found, hfound, hitineraries⟩ := bind_eq_ok.mp hitineraries
  cases hitineraries
  obtain ⟨_, hmem, rfl⟩ := List.mem_filterMap.mp hit
  obtain ⟨finish, hfinish, hitinerary⟩ := exists_of_mem_mapM hfound hmem
  obtain ⟨e, he, rfl⟩ := List.mem_map.mp hfinish
  exact ⟨tariff, bounds, all, times, progress, e, hall, htimes, hprogress, he, hitinerary⟩

/-- An itinerary of a route is that of a finish of a run. -/
theorem exists_finish_of_mem_route {result : RouteResult} {it : Itinerary}
    (h : net.route request = .ok result) (hit : it ∈ result.itineraries) :
    ∃ tariff bounds times progress e,
      run (labelScheme (net.labelScene request tariff (some bounds))) (net.labelCourse request)
        .unlimited (net.labelProgress request) times = .ok progress ∧
      e ∈ progress.state.finishes.entries ∧
      (net.labelScene request tariff (some bounds)).itinerary? progress.state e.1 =
        .ok (some it) := by
  obtain ⟨tariff, bounds, -, times, progress, e, -, -, h⟩ := exists_chunk_of_mem_route h hit
  exact ⟨tariff, bounds, times, progress, e, h⟩

/-- A search makes the iterations from its start times, and leaves their labels and finishes. -/
theorem yields_search {times : List Time} (hnet : net.Sound) :
    Yields (run (labelScheme (net.labelScene request tariff bounds)) (net.labelCourse request)
      .unlimited (net.labelProgress request) times) fun progress => ∃ s,
        (net.labelScene request tariff bounds).Iterations (net.labelCourse request)
          (net.labelProgress request).state times s ∧
        s.Sound request.direction net.stopCount request.maxRounds ∧
        s.arena = progress.state.arena ∧ s.finishes = progress.state.finishes := by
  have hnew : (net.labelProgress request).state.Sound
      (net.labelScene request tariff bounds).direction
      (net.labelScene request tariff bounds).stopCount (net.labelCourse request).maxRounds :=
    Labels.new_sound
  have hmarks : (net.labelProgress request).marks =
    .empty (net.labelCourse request).network.patternCount := rfl
  exact (LabelScene.yields_run hnet labelScene_of rfl hnew hmarks).mono fun _ _ hrun => hrun

/-- The labels and finishes of a run come from legs of the request. -/
theorem yields_justified (hnet : net.Sound) {times : List Time} :
    Yields (run (labelScheme (net.labelScene request tariff bounds)) (net.labelCourse request)
      .unlimited (net.labelProgress request) times) fun progress =>
      (net.labelScene request tariff bounds).Justified (net.labelCourse request)
        progress.state := by
  refine (yields_search hnet).mono ?_
  rintro progress - ⟨s, hiterations, hsound, harena, hfinishes⟩
  exact (hiterations.justified Labels.new_sound LabelScene.justified_new).congr hsound harena.symm
    hfinishes.symm

end Network

/-! ### Answers about drafts -/

/-- Some itinerary of a request in the network of a draft has a property. -/
def Draft.finds (draft : Draft) (request : Request) (P : Network → Itinerary → Bool) : Bool :=
  match draft.build with
  | .error _ => false
  | .ok net =>
    match net.route request with
    | .error _ => false
    | .ok result => result.itineraries.any (P net)

theorem Draft.exists_of_finds {draft : Draft} {request : Request}
    {P : Network → Itinerary → Bool}
    (h : draft.finds request P = true) :
    ∃ net result it, draft.build = .ok net ∧ net.route request = .ok result ∧
      it ∈ result.itineraries ∧ P net it = true := by
  unfold finds at h
  cases hbuild : draft.build with
  | error fault =>
    rw [hbuild] at h
    cases h
  | ok net =>
    rw [hbuild] at h
    cases hroute : net.route request with
    | error fault =>
      simp only [hroute] at h
      cases h
    | ok result =>
      simp only [hroute] at h
      obtain ⟨it, hit, hP⟩ := List.any_eq_true.mp h
      exact ⟨net, result, it, rfl, hroute, hit, hP⟩

end JourneyPlanner
