import JourneyPlanner.Proofs.Route.Chunks
import JourneyPlanner.Proofs.Search.LabelReversal

/-!
# Arriving before a time and departing after one

A search that arrives before a time is a search that departs after the opposite time, on the network
in reversed time: both end with the same transfers and costs, in the same order, at opposite times.

* `Request.reversed`: a request in reversed time.
* `Network.journeyFront`: the criteria of the journeys that a search without bounds finds.
* `journeyFront_reversed`: those of the search in reversed time.
-/

namespace JourneyPlanner

def Request.reversed (request : Request) : Request :=
  { request with
    direction := request.direction.opposite
    time := -request.time
    access := request.egress
    egress := request.access
    slacks := request.slacks.reversed }

/-- The criteria of the journeys that a search without bounds finds from the start times of a
request, in the order of the front at the destination. -/
def Network.journeyFront (net : Network) (request : Request) : Checked (List JourneyCriteria) := do
  let tariff ← Tariff.ofOptions request.costs
  let times ← request.startTimes
  let progress ← run (labelScheme (net.labelScene request tariff none)) (net.labelCourse request)
    .unlimited (net.labelProgress request) times
  return progress.state.finishes.entries.map (·.2)

namespace Request

variable {request : Request}

theorem searchAccess_reversed (request : Request) :
    request.reversed.searchAccess = request.searchAccess := by
  unfold searchAccess reversed
  cases request.direction <;> rfl

theorem searchEgress_reversed (request : Request) :
    request.reversed.searchEgress = request.searchEgress := by
  unfold searchEgress reversed
  cases request.direction <;> rfl

/-- The iterations in reversed time start at the opposite times. -/
theorem startTimes_reversed (request : Request) :
    Concur (fun times times' => times' = times.map fun time => -time) request.startTimes
      request.reversed.startTimes := by
  have hsteps : ∀ (d : Direction) (time : Time) (step : Span) (count : Nat),
      Concur (fun times times' => times' = times.map fun time => -time)
        (startTimes.stepsFrom d time step count)
        (startTimes.stepsFrom d.opposite (-time) step count) := by
    intro d time step count
    induction count with
    | zero =>
      refine Direction.concur_plus.bind ?_
      rintro time _ rfl
      exact .values rfl
    | succ count ih =>
      refine Direction.concur_plus.bind ?_
      rintro furthest _ rfl
      refine ih.bind ?_
      rintro times _ rfl
      exact .values rfl
  exact hsteps request.direction request.time (max request.step 1) _

end Request

namespace Network

variable {net : Network} {request : Request} {tariff : Tariff} {bounds : Option Bounds}

theorem labelScene_reversed (hrules : request.useRules = false) :
    net.reversed.labelScene request.reversed tariff bounds =
      (net.labelScene request tariff bounds).reversed := by
  have hnone : request.rules net = none := by rw [Request.rules, hrules]; rfl
  have hnone' : request.reversed.rules net.reversed = none := by
    rw [Request.rules]
    exact if_neg (by rw [Request.reversed, hrules]; exact Bool.false_ne_true)
  rw [labelScene, labelScene, hnone, hnone', request.searchEgress_reversed]
  rfl

theorem labelCourse_reversed :
    net.reversed.labelCourse request.reversed = (net.labelCourse request).reversed := by
  rw [labelCourse, labelCourse, request.searchAccess_reversed]
  rfl

/-- The journeys that are found in both directions of time have the same transfers and costs and
opposite times. -/
theorem concur_journeyFront (hnet : net.Sound)
    (hvisits : net.patternsAt = Draft.patternsByStop net.stopCount net.patterns)
    (hrules : request.useRules = false) :
    Concur (fun ends ends' => ends' = ends.map JourneyCriteria.reversed)
      (net.journeyFront request) (net.reversed.journeyFront request.reversed) := by
  refine .bind_same fun tariff _ => ?_
  refine request.startTimes_reversed.bind ?_
  rintro times _ rfl
  rw [labelScene_reversed hrules, labelCourse_reversed]
  have hprogress : Progress.Concurs (Labels.Opposed net.stopCount) net (net.labelProgress request)
      (net.reversed.labelProgress request.reversed) :=
    ⟨Labels.opposed_new net.stopCount request.maxRounds, rfl, rfl, rfl⟩
  have hscene : (net.labelScene request tariff none).rules = none := by
    show request.rules net = none
    rw [Request.rules, hrules]
    rfl
  have hreversal : (labelScheme (net.labelScene request tariff none)).Reversal
      (labelScheme (net.labelScene request tariff none).reversed)
      (net.labelCourse request).network (net.labelCourse request).direction
      (Labels.Opposed net.stopCount) Aboard.Opposed := LabelScene.reversal rfl hscene
  refine (hreversal.concur_run hnet hvisits hprogress times).bind ?_
  intro progress progress' hconcurs
  refine .values ?_
  rw [List.map_map]
  exact hconcurs.state.finishes.map_eq fun _ _ he => he.2

theorem yields_journeyFront (hnet : net.Sound) : Yields (net.journeyFront request) fun _ => True :=
  Tariff.yields_ofOptions.bind fun _ _ _ => Request.yields_startTimes.bind fun _ _ _ =>
    (yields_search hnet).bind fun _ _ _ => trivial

end Network

/-- Without rules a search and the search in reversed time end with the same transfers and costs, in
the same order, at opposite times. -/
theorem journeyFront_reversed {draft : Draft} {net : Network} {request : Request}
    (hbuild : draft.build = .ok net) (hrules : request.useRules = false)
    (hfits : net.journeyFront request ≠ .error .overflow)
    (hfits' : net.reversed.journeyFront request.reversed ≠ .error .overflow) :
    ∃ ends, net.journeyFront request = .ok ends ∧
      net.reversed.journeyFront request.reversed = .ok (ends.map JourneyCriteria.reversed) := by
  have hnet := Draft.build_sound hbuild
  obtain ⟨ends, _, hends, hends', rfl⟩ := (Network.concur_journeyFront hnet
    (Draft.build_patternsAt hbuild) hrules).exists_ok (Network.yields_journeyFront hnet) hfits
      hfits'
  exact ⟨ends, hends, hends'⟩

/-- The way from A to D before a time, and from D to A after the opposite time. -/
theorem journeyFront_reversed_twoLines : ∃ net ends,
    let request := fromAToD .reverse false
    twoLines.build = .ok net ∧ request.useRules = false ∧
    net.journeyFront request ≠ .error .overflow ∧
    net.reversed.journeyFront request.reversed ≠ .error .overflow ∧
    net.journeyFront request = .ok ends ∧ ends = [⟨35900, 1, 480600⟩] ∧
      net.reversed.journeyFront request.reversed = .ok (ends.map JourneyCriteria.reversed) := by
  let request := fromAToD .reverse false
  have hbuilds : twoLines.builds (fun net =>
      decide ((net.journeyFront request).toOption = some [⟨35900, 1, 480600⟩]) &&
        (net.reversed.journeyFront request.reversed).toOption.isSome) = true := by
    decide +kernel
  obtain ⟨net, hbuild, hfound⟩ := Draft.exists_of_builds hbuilds
  rw [Bool.and_eq_true, decide_eq_true_eq] at hfound
  have hfits : net.journeyFront request ≠ .error .overflow := by
    intro hoverflow
    rw [hoverflow] at hfound
    cases hfound.1
  have hfits' : net.reversed.journeyFront request.reversed ≠ .error .overflow := by
    intro hoverflow
    rw [hoverflow] at hfound
    cases hfound.2
  obtain ⟨ends, hends, hends'⟩ := journeyFront_reversed hbuild rfl hfits hfits'
  rw [hends] at hfound
  exact ⟨net, ends, hbuild, rfl, hfits, hfits', hends, Option.some.inj hfound.1, hends'⟩

end JourneyPlanner
