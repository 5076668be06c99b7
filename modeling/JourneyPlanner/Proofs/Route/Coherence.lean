import JourneyPlanner.Proofs.Route.Agreement
import JourneyPlanner.Proofs.Search.Coherence

/-!
# The states of a search

Whatever the request and the start times are, the labels and the fronts of every state of a search
hang together. The labels before a finish can thus be followed back to a leg of the request, and
every finish of a search becomes an itinerary.

* `LabelScene.Intact`: the states of a search.
* `LabelScene.Intact.yields_itineraries`: one itinerary for every finish.
* `search_intact`: all states of a search are intact.
-/

namespace JourneyPlanner

namespace LabelScene

variable {c : LabelScene} {course : Course} {request : Request} {s : Labels} {round : Nat}
  {id : LabelId} {access : Connector} {time : Time} {legs : List Leg}

/-- The labels of a state hang together, and all of them lead back to a leg of the request. -/
structure Intact (c : LabelScene) (course : Course) (s : Labels) : Prop where
  coherent : s.Coherent course
  leadsBack : ∀ {id : LabelId} {label : Label}, s.arena[id]? = some label → ∃ trail,
    c.trail? s id = .ok (some trail) ∧ trail.access ∈ course.access ∧
    c.Traces s trail.access trail.accessTime id trail.legs

/-- The leg with which a trail starts is one of the request. -/
theorem Traces.access_mem_of_coherent (h : c.Traces s access time id legs)
    (hs : s.Coherent course) : access ∈ course.access := by
  obtain ⟨_, label, hlabel, horigin, -⟩ := h.exists_origin
  cases hs.linked hlabel with
  | access horigin' hleg =>
    obtain rfl := Origin.access.inj (horigin.symm.trans horigin')
    exact hleg
  | ride horigin' | walk horigin' => cases horigin.symm.trans horigin'

theorem InOrder.intact (h : c.InOrder course round s) (hd : course.direction = c.direction) :
    c.Intact course s where
  coherent := h.coherent
  leadsBack := by
    intro id label hlabel
    have hsound := h.sound
    rw [hd] at hsound
    obtain ⟨trail, htrail⟩ := exists_trail hsound hlabel
    have htraces := traces_of_trail htrail
    exact ⟨trail, htrail, htraces.access_mem_of_coherent h.coherent, htraces⟩

/-- Before and after all operations of a search, its state is intact. -/
theorem run_asserting {deadline : Deadline} {progress : Progress Labels} {times : List Time}
    (hd : course.direction = c.direction) (h : c.InOrder course round progress.state) :
    Same (run ((labelScheme c).asserting (c.Intact course)) course deadline progress times)
      (run (labelScheme c) course deadline progress times)
      fun progress => c.Intact course progress.state := by
  refine ((keeps_inOrder hd).same_run (fun _ _ h => h.intact hd) ⟨round, h⟩).mono ?_
  rintro progress ⟨round, h⟩
  exact h.intact hd

namespace Intact

/-- The trail of a finish becomes an itinerary. -/
theorem yields_itinerary (h : c.Intact course s) (hj : c.Justified course s)
    (hnet : course.network.Sound) (hfor : c.For course request) {e : Finish × JourneyCriteria}
    (he : e ∈ s.finishes.entries) :
    Yields (c.itinerary? s e.1) fun found => ∃ it, found = some it := by
  obtain ⟨label, hlabel, -⟩ := h.coherent.finish he
  obtain ⟨trail, htrail, -, htraces⟩ := h.leadsBack hlabel
  have htimed : Itinerary.AllTimed trail.legs := fun r hr =>
    (htraces.offers hj hnet hfor.services_eq r hr).2
  have hfound : c.trail? s e.1.label = pure (some trail) := htrail
  rw [itinerary?, hfound, pure_bind]
  cases c.direction with
  | forward =>
    have hreversed : Itinerary.AllTimed trail.legs.reverse := fun r hr =>
      htimed r (List.mem_reverse.mp hr)
    refine (yields_word _).bind fun departure _ _ => ?_
    exact (Itinerary.yields_new hreversed).map fun it _ => ⟨it, rfl⟩
  | reverse =>
    refine (Labels.yields_label (Array.getElem?_eq_some_iff.mp hlabel).1).bind fun last _ _ => ?_
    refine (yields_word _).bind fun departure _ _ => ?_
    exact (Itinerary.yields_new (AllTimed_delayed htimed)).map fun it _ => ⟨it, rfl⟩

/-- A state has exactly one itinerary for every finish. -/
theorem yields_itineraries (h : c.Intact course s) (hj : c.Justified course s)
    (hnet : course.network.Sound) (hfor : c.For course request) :
    Yields (c.itineraries s) (List.Forall₂
      (fun e it => c.itinerary? s e.1 = .ok (some it)) s.finishes.entries) := by
  apply yields_itineraries_of
  intro e he
  refine (h.yields_itinerary hj hnet hfor he).mono ?_
  rintro _ hitinerary ⟨it, rfl⟩
  exact ⟨it, rfl, hitinerary⟩

end Intact

end LabelScene

/-- In every state of a search, whatever the network, the request, the start times and the time
budget are, the labels and the fronts hang together and every label leads back to a leg of the
request: asserted before and after all operations, this never fails. In the end, a search has
exactly one itinerary for every finish. -/
theorem search_intact {draft : Draft} {net : Network} (hbuild : draft.build = .ok net)
    (request : Request) (tariff : Tariff) (bounds : Option Bounds) (times : List Time) :
    let c := net.labelScene request tariff bounds
    let course := net.labelCourse request
    (∀ deadline, run ((labelScheme c).asserting (c.Intact course)) course deadline
        (net.labelProgress request) times =
      run (labelScheme c) course deadline (net.labelProgress request) times) ∧
    Yields (run (labelScheme c) course .unlimited (net.labelProgress request) times)
      fun progress => c.Intact course progress.state ∧
        Yields (c.itineraries progress.state) (List.Forall₂
          (fun e it => c.itinerary? progress.state e.1 = .ok (some it))
          progress.state.finishes.entries) := by
  intro c course
  have hnet := Draft.build_sound hbuild
  have hnew : c.InOrder course 0 (net.labelProgress request).state :=
    ⟨Labels.new_sound, Labels.Coherent.new, rfl⟩
  constructor
  · intro deadline
    exact (LabelScene.run_asserting rfl hnew).eq
  · refine (Network.yields_justified hnet).mono fun progress hrun hjustified => ?_
    have hintact := (LabelScene.run_asserting rfl hnew).value progress hrun
    exact ⟨hintact, hintact.yields_itineraries hjustified hnet Network.labelScene_for⟩

/-- Asked for the way from A to D at two start times, the search makes two iterations without any
assertion failing, and has one itinerary for its only finish. -/
theorem search_intact_twoLines : ∃ net progress itineraries,
    let c := net.labelScene (fromAToD .forward true) plainTariff none
    let course := net.labelCourse (fromAToD .forward true)
    twoLines.build = .ok net ∧
    run ((labelScheme c).asserting (c.Intact course)) course .unlimited
      (net.labelProgress (fromAToD .forward true)) [36000, 35000] = .ok progress ∧
    c.Intact course progress.state ∧ c.itineraries progress.state = .ok itineraries ∧
    itineraries.length = 1 ∧
    List.Forall₂ (fun e it => c.itinerary? progress.state e.1 = .ok (some it))
      progress.state.finishes.entries itineraries := by
  have hbuilds : twoLines.builds (fun net =>
      (net.routeChunk (fromAToD .forward true)
        (net.labelScene (fromAToD .forward true) plainTariff none) .unlimited
        [36000, 35000]).toOption.any fun part => part.1.length == 1) = true := by
    decide +kernel
  obtain ⟨net, hbuild, hfound⟩ := Draft.exists_of_builds hbuilds
  cases hroute : net.routeChunk (fromAToD .forward true)
      (net.labelScene (fromAToD .forward true) plainTariff none) .unlimited [36000, 35000] with
  | error fault =>
    rw [hroute] at hfound
    cases hfound
  | ok part =>
    rw [hroute] at hfound
    obtain ⟨progress, hrun, hroute⟩ := bind_eq_ok.mp hroute
    obtain ⟨itineraries, hitineraries, hroute⟩ := bind_eq_ok.mp hroute
    cases hroute
    obtain ⟨hsame, hyields⟩ :=
      search_intact hbuild (fromAToD .forward true) plainTariff none [36000, 35000]
    obtain ⟨hintact, hone⟩ := hyields.of_ok hrun
    exact ⟨net, progress, itineraries, hbuild, (hsame .unlimited).trans hrun, hintact,
      hitineraries, by simpa [Except.toOption] using hfound, hone.of_ok hitineraries⟩

end JourneyPlanner
