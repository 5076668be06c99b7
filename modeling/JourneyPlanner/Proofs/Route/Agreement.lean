import JourneyPlanner.Proofs.Route.Chunks

/-!
# What a search compares and what it answers

A search prices its labels ride by ride, in its own direction, and an itinerary is priced in the
order of the traveller. Of a search that follows the clock, and of one without rules, the two agree.
Of a search that goes back in time under rules they differ by the drift of the changes: a change
under a rule is charged to the earlier ride, and the itinerary charges it to the later one.

* `Itinerary.best_eq`: itineraries that agree with finishes are all among the best.
* `search_agrees`: itineraries have the criteria by which the search has compared them.
* `search_drifts`: how they differ from them.
-/

namespace JourneyPlanner

/-- No itinerary with the criteria of finishes is as good as another one. -/
theorem Itinerary.best_eq {d : Direction} {itineraries : List Itinerary}
    {finishes : Front Finish JourneyCriteria} (hclean : finishes.Clean d.dominatesJourney)
    (hmeets : LabelScene.MeetsFinishes d itineraries finishes) :
    best d itineraries = itineraries := by
  have hpairwise : (itineraries.map (·.criteria d)).Pairwise fun a b =>
      d.dominatesJourney a b = false ∧ d.dominatesJourney b a = false := by
    rw [hmeets, List.pairwise_map]
    exact hclean
  have hfront : Front.Clean d.dominatesJourney
      ⟨itineraries.map fun it => (it, it.criteria d)⟩ := by
    rw [Front.Clean, List.pairwise_map]
    exact List.pairwise_map.mp hpairwise
  rw [best, hfront.ofList_eq, Front.elements, List.map_map]
  exact List.map_id _

variable {draft : Draft} {net : Network} {request : Request} {tariff : Tariff}
  {bounds : Option Bounds} {times : List Time}

/-- Whatever its start times are, the itineraries of a search have the criteria by which it has
compared them, and none of them is as good as another one. -/
theorem search_agrees (hbuild : draft.build = .ok net)
    (hagrees : request.direction = .forward ∨ request.rules net = none)
    (hslacks : request.slacks.Nonneg) (haccess : ∀ leg ∈ request.access, leg.onBoard = false)
    (hegress : ∀ leg ∈ request.egress, leg.onBoard = false) :
    Yields (run (labelScheme (net.labelScene request tariff bounds)) (net.labelCourse request)
      .unlimited (net.labelProgress request) times) fun progress =>
      (∀ e ∈ progress.state.finishes.entries,
        Yields ((net.labelScene request tariff bounds).itinerary? progress.state e.1) fun found =>
          ∃ it, found = some it ∧ it.criteria request.direction = e.2) ∧
      Yields ((net.labelScene request tariff bounds).itineraries progress.state) fun itineraries =>
        Itinerary.best request.direction itineraries = itineraries := by
  have hnet := Draft.build_sound hbuild
  obtain ⟨haccess', hegress'⟩ := Request.walks_of_walks haccess hegress
  refine (Network.yields_search hnet).mono ?_
  rintro progress - ⟨s, hiterations, hsound, harena, hfinishes⟩
  have hjustified := hiterations.justified Labels.new_sound LabelScene.justified_new
  have hclean := hiterations.clean Front.clean_empty
  rw [← hfinishes, ← LabelScene.itineraries_congr harena hfinishes]
  refine ⟨fun e he => ?_, ?_⟩
  · rw [← LabelScene.itinerary?_congr harena]
    exact LabelScene.yields_itinerary hsound hjustified hnet Network.labelScene_for hagrees hslacks
      haccess' hegress' Network.maxRounds_le he
  · exact (LabelScene.yields_itineraries hsound hjustified hnet Network.labelScene_for hagrees
      hslacks haccess' hegress' Network.maxRounds_le).mono fun itineraries _ hmeets =>
        Itinerary.best_eq hclean hmeets

/-- The request from A to D follows the rules: it changes to the blue trip that waits, and the
search has priced this change as the itinerary does. -/
theorem search_agrees_twoLines : ∃ net tariff bounds times progress e it,
    twoLines.build = .ok net ∧ (fromAToD .forward true).direction = .forward ∧
    (fromAToD .forward true).slacks.Nonneg ∧
    (∀ leg ∈ (fromAToD .forward true).access, leg.onBoard = false) ∧
    (∀ leg ∈ (fromAToD .forward true).egress, leg.onBoard = false) ∧
    run (labelScheme (net.labelScene (fromAToD .forward true) tariff bounds))
      (net.labelCourse (fromAToD .forward true)) .unlimited
      (net.labelProgress (fromAToD .forward true)) times = .ok progress ∧
    e ∈ progress.state.finishes.entries ∧
    (net.labelScene (fromAToD .forward true) tariff bounds).itinerary? progress.state e.1 =
      .ok (some it) ∧
    (∃ r, .ride r ∈ it.legs ∧ r.constraint = .guaranteed) ∧
    it.criteria .forward = e.2 := by
  have hfinds : twoLines.finds (fromAToD .forward true) (fun _ it => it.legs.any fun leg =>
      leg.ride?.any fun r => r.constraint == .guaranteed) = true := by decide +kernel
  obtain ⟨net, result, it, hbuild, hroute, hit, hfacts⟩ := Draft.exists_of_finds hfinds
  obtain ⟨leg, hleg, hguaranteed⟩ := List.any_eq_true.mp hfacts
  obtain ⟨tariff, bounds, times, progress, e, hrun, he, hitinerary⟩ :=
    Network.exists_finish_of_mem_route hroute hit
  have hslacks : (fromAToD .forward true).slacks.Nonneg := ⟨by decide, by decide, by decide⟩
  obtain ⟨_, hfound, hcriteria⟩ := (((search_agrees hbuild (.inl rfl) hslacks (by decide)
    (by decide)).of_ok hrun).1 e he).of_ok hitinerary
  obtain rfl := Option.some.inj hfound
  have hride : ∃ r, .ride r ∈ it.legs ∧ r.constraint = .guaranteed := by
    cases leg with
    | walk stroll => cases hguaranteed
    | ride r => exact ⟨r, hleg, by simpa [Leg.ride?] using hguaranteed⟩
  exact ⟨net, tariff, some bounds, times, progress, e, it, hbuild, rfl, hslacks,
    by decide, by decide, hrun, he, hitinerary, hride, hcriteria⟩

/-- The itineraries of a search that goes back in time start when it has found, with as many
transfers. They cost more by the drift of their changes. -/
theorem search_drifts (hbuild : draft.build = .ok net) (hd : request.direction = .reverse)
    (hslacks : request.slacks.Nonneg) (haccess : ∀ leg ∈ request.access, leg.onBoard = false)
    (hegress : ∀ leg ∈ request.egress, leg.onBoard = false) :
    Yields (run (labelScheme (net.labelScene request tariff bounds)) (net.labelCourse request)
      .unlimited (net.labelProgress request) times) fun progress =>
      ∀ e ∈ progress.state.finishes.entries,
        Yields ((net.labelScene request tariff bounds).itinerary? progress.state e.1) fun found =>
          ∃ it, found = some it ∧ it.criteria .reverse =
            { e.2 with cost := e.2.cost + Itinerary.drift tariff request.slacks it.legs } := by
  have hnet := Draft.build_sound hbuild
  obtain ⟨haccess', hegress'⟩ := Request.walks_of_walks haccess hegress
  refine (Network.yields_search hnet).mono ?_
  rintro progress - ⟨s, hiterations, hsound, harena, hfinishes⟩ e he
  have hjustified := hiterations.justified Labels.new_sound LabelScene.justified_new
  rw [← hfinishes] at he
  rw [← LabelScene.itinerary?_congr harena, ← hd]
  refine (LabelScene.yields_itinerary_reverse hsound hjustified hnet
    Network.labelScene_for hd hslacks haccess' hegress' Network.maxRounds_le he).mono ?_
  rintro _ - ⟨it, rfl, hcriteria, -⟩
  exact ⟨it, rfl, hcriteria⟩

/-- Some itinerary of a search in the network of a draft has a property. -/
def Draft.meets (draft : Draft) (request : Request) (tariff : Tariff) (times : List Time)
    (P : Itinerary → Bool) : Bool :=
  draft.builds fun net =>
    match run (labelScheme (net.labelScene request tariff none))
        (net.labelCourse request) .unlimited (net.labelProgress request) times with
    | .error _ => false
    | .ok progress => progress.state.finishes.entries.any fun e =>
      match (net.labelScene request tariff none).itinerary? progress.state e.1 with
      | .ok (some it) => P it
      | _ => false

theorem Draft.exists_of_meets {draft : Draft} {request : Request} {tariff : Tariff}
    {times : List Time} {P : Itinerary → Bool} (h : draft.meets request tariff times P = true) :
    ∃ net progress e it, draft.build = .ok net ∧
      run (labelScheme (net.labelScene request tariff none)) (net.labelCourse request) .unlimited
        (net.labelProgress request) times = .ok progress ∧
      e ∈ progress.state.finishes.entries ∧
      (net.labelScene request tariff none).itinerary? progress.state e.1 = .ok (some it) ∧
      P it = true := by
  obtain ⟨net, hbuild, hmeets⟩ := Draft.exists_of_builds h
  split at hmeets
  · cases hmeets
  · rename_i progress hrun
    obtain ⟨e, he, hmeets⟩ := List.any_eq_true.mp hmeets
    split at hmeets
    · rename_i it hitinerary
      exact ⟨net, progress, e, it, hbuild, hrun, he, hitinerary, hmeets⟩
    · cases hmeets

/-- A traveller who takes a minute after alighting and none before boarding, and changes to the blue
trip that waits: the search has not charged this minute. -/
theorem search_drifts_twoLines : ∃ net progress e it,
    let request := { fromAToD .reverse true with slacks := ⟨0, 60, 60⟩ }
    twoLines.build = .ok net ∧ request.direction = .reverse ∧ request.slacks.Nonneg ∧
    (∀ leg ∈ request.access, leg.onBoard = false) ∧ (∀ leg ∈ request.egress, leg.onBoard = false) ∧
    run (labelScheme (net.labelScene request plainTariff none)) (net.labelCourse request) .unlimited
      (net.labelProgress request) [39000] = .ok progress ∧
    e ∈ progress.state.finishes.entries ∧
    (net.labelScene request plainTariff none).itinerary? progress.state e.1 = .ok (some it) ∧
    it.criteria .reverse = { e.2 with cost := e.2.cost + 6000 } := by
  let request := { fromAToD .reverse true with slacks := ⟨0, 60, 60⟩ }
  have hmeets : twoLines.meets request plainTariff [39000] (fun it =>
      decide (Itinerary.drift plainTariff request.slacks it.legs = 6000)) = true := by
    decide +kernel
  obtain ⟨net, progress, e, it, hbuild, hrun, he, hitinerary, hdrift⟩ :=
    Draft.exists_of_meets hmeets
  have hslacks : request.slacks.Nonneg := ⟨by decide, by decide, by decide⟩
  obtain ⟨_, hfound, hcriteria⟩ := (((search_drifts hbuild rfl hslacks (by decide)
    (by decide)).of_ok hrun) e he).of_ok hitinerary
  obtain rfl := Option.some.inj hfound
  rw [of_decide_eq_true hdrift] at hcriteria
  exact ⟨net, progress, e, it, hbuild, rfl, hslacks, by decide, by decide, hrun, he, hitinerary,
    hcriteria⟩

end JourneyPlanner
