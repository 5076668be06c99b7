import JourneyPlanner.Proofs.Route.Completeness
import JourneyPlanner.Proofs.Search.Extensions

/-!
# Divided start times

The start times of a route may be divided into chunks that are searched one by one. Without rules
all divisions answer itineraries with the same best times and transfers. Their costs may differ: a
search keeps no arrival that is later and dearer than one found from another start time, even if
less time is left to wait after it.

* `Network.Brief`: every way to the end is short.
* `Network.Answers.exists_onward`: an answer can follow a leg at the time asked for.
* `route_chunks`: the division does not matter to times and transfers.
-/

namespace JourneyPlanner

namespace Network

variable {net : Network} {request : Request} {tariff : Tariff} {bounds : Option Bounds}

/-- Every way to the end of a request takes less than the time that stands for unreached stops. -/
def Brief (net : Network) (request : Request) : Prop :=
  ∀ tariff bounds, (net.labelScene request tariff bounds).Brief net

/-- What a route has found from any start time can follow a leg at the time asked for, which no
start time comes before. -/
theorem Answers.exists_onward {times : List Time} {states : List Labels}
    {itineraries : List Itinerary} {it : Itinerary}
    (h : net.Answers request tariff bounds (request.timeChunks times) states itineraries)
    (hnet : net.Sound) (hrules : request.rules net = none) (hslacks : request.slacks.Nonneg)
    (haccess : ∀ leg ∈ request.searchAccess, leg.onBoard = false)
    (hegress : ∀ leg ∈ request.searchEgress, leg.onBoard = false) (hbrief : net.Brief request)
    (htimes : ∀ start ∈ times, request.direction.NoLater request.time start)
    (hit : it ∈ itineraries) :
    ∃ leg ∈ request.searchAccess, leg.stop < net.stopCount ∧ ∃ rides duration cost ending,
      (net.labelScene request tariff bounds).Onward net false leg.stop false
        (request.direction.shift request.time leg.duration) rides duration cost ending ∧
      request.direction.NoLater ending (it.criteria request.direction).time ∧
      rides ≤ request.maxRounds ∧ rides - 1 ≤ it.transferCount := by
  obtain ⟨s, hs, e, he, hcriteria⟩ := h.finished it hit
  obtain ⟨chunk, hchunk, hiterations⟩ := h.exists_chunk hs
  obtain ⟨leg, hleg, hstop, start, hstart, rides, duration, cost, honward, hrides, htransfers⟩ :=
    hiterations.exists_onward Labels.new_sound LabelScene.justified_new LabelScene.departs_new hnet
      labelScene_of hrules haccess hegress (hbrief tariff bounds) he
  change rides ≤ request.maxRounds at hrides
  have hsooner : request.direction.NoLater (request.direction.shift request.time leg.duration)
      (request.direction.shift start leg.duration) :=
    (htimes start (Request.mem_of_mem_timeChunks hchunk hstart)).shift le_rfl
  obtain ⟨ending, hfirst, hending⟩ := honward.sooner hslacks id id hsooner
  refine ⟨leg, hleg, hstop, rides, duration, cost, ending, hfirst, ?_, hrides, ?_⟩
  · rw [hcriteria]
    exact hending
  · have hbyte := hrides.trans maxRounds_le
    rw [h.transferCount_eq hit, hcriteria, htransfers]
    omega

end Network

/-- However the start times of a route are divided, for each itinerary it answers any other division
answers one that ends no later and has no more transfers. -/
theorem route_chunks {draft : Draft} {net : Network} {request : Request} {count : Nat}
    (hbuild : draft.build = .ok net) (hrules : request.rules net = none)
    (hslacks : request.slacks.Nonneg) (haccess : ∀ leg ∈ request.access, leg.onBoard = false)
    (hegress : ∀ leg ∈ request.egress, leg.onBoard = false) (hbrief : net.Brief request) :
    Yields (net.route request) fun result =>
      Yields (net.route { request with chunks := count }) fun other =>
        ∀ it ∈ result.itineraries, ∃ it' ∈ other.itineraries,
          request.direction.NoLater (it'.criteria request.direction).time
            (it.criteria request.direction).time ∧ it'.transferCount ≤ it.transferCount := by
  have hnet := Draft.build_sound hbuild
  obtain ⟨haccess', hegress'⟩ := Request.walks_of_walks haccess hegress
  refine (Network.yields_route hnet (.inr hrules) hslacks haccess' hegress').mono ?_
  rintro result - ⟨tariff, bounds, times, htariff, hbounds, htimes, hanswers⟩
  let divided : Request := { request with chunks := count }
  have hdivided : Yields (net.route divided) _ :=
    Network.yields_route hnet (.inr hrules) hslacks haccess' hegress'
  refine hdivided.mono fun other hother _ it hit => ?_
  rcases hanswers with ⟨-, hnone⟩ | ⟨states, hanswers⟩
  · rw [hnone] at hit
    cases hit
  obtain ⟨leg, hleg, hstop, rides, duration, cost, ending, honward, hending, hrides, htransfers⟩ :=
    hanswers.exists_onward hnet hrules hslacks haccess' hegress' hbrief
      (Request.yields_startTimes.of_ok htimes).2 hit
  have hfollows : ∀ tariff' bounds', Tariff.ofOptions request.costs = .ok tariff' →
      net.bounds request tariff' = .ok bounds' →
      ∃ cost, (net.labelScene request tariff' (some bounds')).Onward net false leg.stop false
        (request.direction.shift request.time leg.duration) rides duration cost ending := by
    intro tariff' bounds' htariff' hbounds'
    obtain rfl := Except.ok.inj (htariff.symm.trans htariff')
    obtain rfl := Except.ok.inj (hbounds.symm.trans hbounds')
    exact ⟨cost, honward⟩
  have hfound : Yields (net.route divided) _ :=
    Network.yields_route_onward hnet hrules hslacks haccess'
    hegress' hleg hstop hfollows (hbrief _ _ honward) fun _ => hrides
  obtain ⟨it', hit', htime, hfewer⟩ := hfound.of_ok hother
  exact ⟨it', hit', htime.trans hending, hfewer.trans htransfers⟩

/-- Every way to D on the two lines is short. -/
theorem brief_twoLines {net : Network} (hbuild : twoLines.build = .ok net) :
    net.Brief (fromAToD .forward false) := by
  have hslacks : (fromAToD .forward false).slacks.Nonneg := ⟨by decide, by decide, by decide⟩
  have hlegs : ∀ leg ∈ (fromAToD .forward false).searchEgress, leg.duration ≤ 200 := by decide
  exact fun _ _ => LabelScene.brief_of_within (LabelScene.within_twoLines hbuild)
    (Draft.build_sound hbuild) hslacks hlegs (by decide) (by decide) (by decide)

/-- The way from A to D, without rules, in one chunk and in two. -/
theorem route_chunks_twoLines : ∃ net result other it,
    let request := fromAToD .forward false
    twoLines.build = .ok net ∧ request.rules net = none ∧ request.slacks.Nonneg ∧
    (∀ leg ∈ request.access, leg.onBoard = false) ∧ (∀ leg ∈ request.egress, leg.onBoard = false) ∧
    net.Brief request ∧ net.route request = .ok result ∧
    net.route { request with chunks := 2 } = .ok other ∧ it ∈ result.itineraries ∧
    ∃ it' ∈ other.itineraries, it'.endTime ≤ it.endTime ∧ it'.transferCount ≤ it.transferCount := by
  let request := fromAToD .forward false
  have hfinds : twoLines.finds request (fun net _ =>
      (net.route { request with chunks := 2 }).toOption.isSome) = true := by
    decide +kernel
  obtain ⟨net, result, it, hbuild, hroute, hit, hother⟩ := Draft.exists_of_finds hfinds
  have hslacks : request.slacks.Nonneg := ⟨by decide, by decide, by decide⟩
  have hbrief : net.Brief request := brief_twoLines hbuild
  cases hroute' : net.route { request with chunks := 2 } with
  | error fault =>
    rw [hroute'] at hother
    cases hother
  | ok other =>
    obtain ⟨it', hit', htime, htransfers⟩ := ((route_chunks hbuild rfl hslacks
      (by decide) (by decide) hbrief).of_ok hroute).of_ok hroute' it hit
    exact ⟨net, result, other, it, hbuild, rfl, hslacks, by decide, by decide, hbrief,
      hroute, hroute', hit, it', hit', Direction.noLater_forward.mp htime, htransfers⟩

end JourneyPlanner
