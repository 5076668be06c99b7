import JourneyPlanner.Proofs.Route.Agreement
import JourneyPlanner.Proofs.Route.Divisions
import JourneyPlanner.Proofs.Search.Pruning

/-!
# Routes without bounds

A route searches with bounds, and makes no search at all where the bounds say that no leg leads to
the end. Without rules both are a matter of time only: a search that leaves nothing out finds
itineraries with the same criteria.

* `CostOptions.Nonneg`: weights of which none is negative.
* `Network.routeUnpruned`: what a search answers that leaves nothing out.
* `route_unpruned`: bounds change no criteria.
-/

namespace JourneyPlanner

/-- Nothing is earned by changing, waiting or riding, or at a stop. -/
structure CostOptions.Nonneg (options : CostOptions) : Prop where
  transfer : 0 ≤ options.transfer
  wait : 0 ≤ Cost.ofFloat options.wait
  transit : ∀ factor ∈ options.transit, 0 ≤ Cost.ofFloat factor
  stops : ∀ stop ∈ options.stops.getD [], 0 ≤ stop

theorem Cost.ofSeconds_mono {a b : Int} (h : a ≤ b) : Cost.ofSeconds a ≤ Cost.ofSeconds b :=
  max_le_max le_rfl (min_le_min (Int.mul_le_mul_of_nonneg_left h (by decide)) le_rfl)

theorem Tariff.nonneg_of_ofOptions {options : CostOptions} {tariff : Tariff}
    (h : Tariff.ofOptions options = .ok tariff) (hoptions : options.Nonneg) : tariff.Nonneg := by
  obtain ⟨both, hboth, h⟩ := bind_eq_ok.mp h
  obtain ⟨-, rfl⟩ := word_eq_ok.mp hboth
  cases h
  refine ⟨Cost.ofSeconds_mono ?_, hoptions.wait, fun stop => ?_, fun reluctance => ?_⟩
  · have := hoptions.transfer
    omega
  · show 0 ≤ Array.getD _ stop 0
    rw [Array.getD_eq_getD_getElem?, List.getElem?_toArray, List.getElem?_map]
    cases hstop : (options.stops.getD [])[stop]? with
    | none => exact le_rfl
    | some seconds => exact Cost.ofSeconds_mono (hoptions.stops _ (List.mem_of_getElem? hstop))
  · show 0 ≤ Array.getD _ reluctance defaultTransitFactor
    rw [Array.getD_eq_getD_getElem?, List.getElem?_toArray, List.getElem?_map]
    cases hfactor : options.transit[reluctance]? with
    | none => decide
    | some factor => exact hoptions.transit _ (List.mem_of_getElem? hfactor)

namespace Network

/-- The best itineraries of a request, found from all start times at once without bounds. -/
def routeUnpruned (net : Network) (request : Request) : Checked (List Itinerary) := do
  let tariff ← Tariff.ofOptions request.costs
  let times ← request.startTimes
  let (itineraries, _) ←
    net.routeChunk request (net.labelScene request tariff none) .unlimited times
  return Itinerary.best request.direction itineraries

variable {net : Network} {request : Request} {tariff : Tariff} {bounds : Option Bounds}
  {times : List Time} {states : List Labels} {itineraries : List Itinerary} {s s' : Labels}

theorem labelScene_plain (hnet : net.Sound) (hrules : request.rules net = none)
    (hslacks : request.slacks.Nonneg) (htariff : tariff.Nonneg)
    (hegress : ∀ leg ∈ request.searchEgress, leg.onBoard = false) (hbrief : net.Brief request) :
    (net.labelScene request tariff bounds).Plain (net.labelCourse request) where
  sound := hnet
  scene := labelScene_of
  direction_eq := rfl
  rules_eq := hrules
  slacks := hslacks
  tariff := htariff
  walks := hegress
  brief := hbrief tariff bounds

/-- Without bounds the answer are itineraries with the criteria of all finishes. -/
theorem yields_routeUnpruned (hnet : net.Sound) (hrules : request.rules net = none)
    (hslacks : request.slacks.Nonneg) (haccess : ∀ leg ∈ request.searchAccess, leg.onBoard = false)
    (hegress : ∀ leg ∈ request.searchEgress, leg.onBoard = false) :
    Yields (net.routeUnpruned request) fun itineraries => ∃ tariff times s,
      Tariff.ofOptions request.costs = .ok tariff ∧ request.startTimes = .ok times ∧
      (net.labelScene request tariff none).Iterations (net.labelCourse request)
        (net.labelProgress request).state times s ∧
      LabelScene.MeetsFinishes request.direction itineraries s.finishes := by
  refine Tariff.yields_ofOptions.bind fun tariff htariff _ => ?_
  refine Request.yields_startTimes.bind fun times htimes _ => ?_
  refine (yields_routeChunk hnet (.inr hrules) hslacks haccess hegress).bind ?_
  rintro found - ⟨s, hiterations, hmeets⟩
  have hbest : Itinerary.best request.direction found.1 = found.1 :=
    Itinerary.best_eq (hiterations.clean Front.clean_empty) hmeets
  refine ⟨tariff, times, s, htariff, htimes, hiterations, ?_⟩
  rw [hbest]
  exact hmeets

/-- With one chunk the answer has the criteria of the finishes of its search. -/
theorem Answers.exists_of_singleton
    (h : net.Answers request tariff bounds [times] states itineraries) :
    ∃ s, (net.labelScene request tariff bounds).Iterations (net.labelCourse request)
      (net.labelProgress request).state times s ∧
      ∀ k, (∃ it ∈ itineraries, it.criteria request.direction = k) ↔
        ∃ e ∈ s.finishes.entries, e.2 = k := by
  obtain ⟨hsearched, hcovered, hfinished⟩ := h
  cases hsearched with
  | @cons _ s _ _ hiterations hrest =>
    cases hrest
    simp only [List.mem_singleton, forall_eq, exists_eq_left] at hcovered hfinished
    have hclean := hiterations.clean Front.clean_empty
    refine ⟨s, hiterations, fun k => ⟨?_, ?_⟩⟩
    · rintro ⟨it, hit, rfl⟩
      obtain ⟨e, he, hcriteria⟩ := hfinished it hit
      exact ⟨e, he, hcriteria.symm⟩
    · rintro ⟨e, he, rfl⟩
      obtain ⟨it, hit, hdom⟩ := hcovered e he
      obtain ⟨e', he', hcriteria⟩ := hfinished it hit
      rw [hcriteria] at hdom
      rw [← hclean.eq_of_dom he' he hdom]
      exact ⟨it, hit, hcriteria⟩

/-- Where no leg of a request leads to the end, no search finds anything. -/
theorem finishes_eq_nil
    (hplain : (net.labelScene request tariff none).Plain (net.labelCourse request))
    (haccess : ∀ leg ∈ request.searchAccess, leg.onBoard = false) {bounds : Bounds}
    (hbelow : bounds.Below (net.labelCourse request) tariff (request.rules net)
      request.searchEgress)
    (hnone : ∀ leg ∈ request.searchAccess, bounds.at? leg.stop = none)
    (hiterations : (net.labelScene request tariff none).Iterations (net.labelCourse request)
      (net.labelProgress request).state times s) : s.finishes.entries = [] := by
  refine List.eq_nil_iff_forall_not_mem.mpr fun e he => ?_
  obtain ⟨leg, hleg, -, start, -, rides, duration, cost, honward, hrides, -⟩ :=
    hiterations.exists_onward Labels.new_sound LabelScene.justified_new LabelScene.departs_new
      hplain.sound hplain.scene hplain.rules_eq haccess hplain.walks hplain.brief he
  obtain ⟨_, hremains, -⟩ := honward.remains
  obtain ⟨_, hsome, -⟩ := hbelow hremains (fun _ => hrides) (hplain.brief honward)
  rw [hnone leg hleg] at hsome
  cases hsome

end Network

/-- In both directions, without rules, a route in one chunk answers itineraries with the same
criteria as a search that leaves nothing out. -/
theorem route_unpruned {draft : Draft} {net : Network} {request : Request}
    (hbuild : draft.build = .ok net) (hchunks : request.chunks ≤ 1)
    (hrules : request.rules net = none) (hslacks : request.slacks.Nonneg)
    (hcosts : request.costs.Nonneg) (haccess : ∀ leg ∈ request.access, leg.onBoard = false)
    (hegress : ∀ leg ∈ request.egress, leg.onBoard = false) (hbrief : net.Brief request) :
    Yields (net.route request) fun result =>
      Yields (net.routeUnpruned request) fun itineraries =>
        ∀ k, (∃ it ∈ result.itineraries, it.criteria request.direction = k) ↔
          ∃ it ∈ itineraries, it.criteria request.direction = k := by
  have hnet := Draft.build_sound hbuild
  obtain ⟨haccess', hegress'⟩ := Request.walks_of_walks haccess hegress
  refine (Network.yields_route hnet (.inr hrules) hslacks haccess' hegress').mono ?_
  rintro result - ⟨tariff, bounds, times, htariff, hbounds, htimes, hanswers⟩
  refine (Network.yields_routeUnpruned hnet hrules hslacks haccess' hegress').mono ?_
  rintro itineraries - ⟨tariff', times', s', htariff', htimes', hiterations', hmeets⟩
  obtain rfl := Except.ok.inj (htariff.symm.trans htariff')
  obtain rfl := Except.ok.inj (htimes.symm.trans htimes')
  let c := net.labelScene request tariff none
  have hbelow := (Network.yields_bounds hnet).of_ok hbounds
  have hplain : c.Plain (net.labelCourse request) :=
    Network.labelScene_plain hnet hrules hslacks (Tariff.nonneg_of_ofOptions htariff hcosts)
      hegress' hbrief
  intro k
  rw [hmeets.exists_iff]
  rcases hanswers with ⟨hnone, hnothing⟩ | ⟨states, hanswers⟩
  · rw [hnothing, Network.finishes_eq_nil hplain haccess' hbelow hnone hiterations']
    simp
  rw [Request.timeChunks_eq_singleton hchunks] at hanswers
  obtain ⟨s, hiterations, hroute⟩ := hanswers.exists_of_singleton
  have hpruned : (c.under (some bounds)).Iterations (net.labelCourse request)
      (net.labelProgress request).state times s := hiterations
  have hfull : (c.under none).Iterations (net.labelCourse request)
      (net.labelProgress request).state times s' := hiterations'
  have hparallel : c.Parallel (net.labelCourse request) s s' :=
    hpruned.parallel hfull (.refl Labels.new_sound) hplain (by rintro _ ⟨⟩; exact hbelow)
      (by rintro _ ⟨⟩)
  rw [hroute]
  constructor
  · rintro ⟨e, he, rfl⟩
    exact hparallel.exists_finish (hiterations.clean Front.clean_empty) he
  · rintro ⟨e, he, rfl⟩
    exact hparallel.symm.exists_finish (hiterations'.clean Front.clean_empty) he

/-- The way from A to D, without rules. -/
theorem route_unpruned_twoLines : ∃ net result itineraries it,
    let request := fromAToD .forward false
    twoLines.build = .ok net ∧ request.chunks ≤ 1 ∧ request.rules net = none ∧
    request.slacks.Nonneg ∧ request.costs.Nonneg ∧ (∀ leg ∈ request.access, leg.onBoard = false) ∧
    (∀ leg ∈ request.egress, leg.onBoard = false) ∧ net.Brief request ∧
    net.route request = .ok result ∧ net.routeUnpruned request = .ok itineraries ∧
    it ∈ result.itineraries ∧
      ∃ it' ∈ itineraries, it'.criteria .forward = it.criteria .forward := by
  let request := fromAToD .forward false
  have hfinds : twoLines.finds request (fun net _ =>
      (net.routeUnpruned request).toOption.isSome) = true := by
    decide +kernel
  obtain ⟨net, result, it, hbuild, hroute, hit, hother⟩ := Draft.exists_of_finds hfinds
  have hslacks : request.slacks.Nonneg := ⟨by decide, by decide, by decide⟩
  have hcosts : request.costs.Nonneg := ⟨by decide, by decide +kernel, by simp [request, fromAToD],
    by simp [request, fromAToD]⟩
  have hbrief : net.Brief request := brief_twoLines hbuild
  cases hunpruned : net.routeUnpruned request with
  | error fault =>
    rw [hunpruned] at hother
    cases hother
  | ok itineraries =>
    have hsame := ((route_unpruned hbuild le_rfl rfl hslacks hcosts (by decide) (by decide)
      hbrief).of_ok hroute).of_ok hunpruned (it.criteria .forward)
    exact ⟨net, result, itineraries, it, hbuild, le_rfl, rfl, hslacks, hcosts, by decide, by decide,
      hbrief, hroute, hunpruned, hit, hsame.mp ⟨it, hit, rfl⟩⟩

end JourneyPlanner
