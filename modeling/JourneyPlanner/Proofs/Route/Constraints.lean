import JourneyPlanner.Proofs.Route.Requested
import JourneyPlanner.Proofs.Route.RuledChanges
import JourneyPlanner.Proofs.Transfer.MostSpecific

/-!
# The constraints of rides

What the label of a ride says about the change to it. A search knows the constraint of a boarding
where it makes it. Going back in time, this is the earlier ride of a change, and the constraint moves
to the later one when the parts are put in the order of the traveller. It stays the constraint of
the rule that decides on the change.

* `LabelScene.first_regular_of_itinerary`: the first ride of an itinerary is boarded regularly.
* `Network.Settled.constraintBetween_eq`: the rule behind a label.
* `route_constraints`: the labels of all rides of a route.
-/

namespace JourneyPlanner

namespace Draft

variable {draft : Draft} {net : Network}

/-- Without declared rules a network has none. -/
theorem build_no_rules (hbuild : draft.build = .ok net) (hnone : draft.rules = []) :
    net.rules = none := by
  obtain ⟨plain, hplain, hbuild⟩ := bind_eq_ok.mp hbuild
  simp only [hnone, List.isEmpty_nil, if_true] at hbuild
  obtain rfl := Except.ok.inj hbuild
  exact (buildWithoutRules_sound hplain).2

/-- No rule of a network has a mixed side if all are declared by plain names. -/
theorem not_isMixed_of_build {index : RuleIndex} (hbuild : draft.build = .ok net)
    (hplain : ∀ rule ∈ draft.rules, rule.source.IsPlain ∧ rule.target.IsPlain)
    (hindex : net.rules = some index) :
    ∀ rule ∈ index.rules, ¬rule.source.IsMixed ∧ ¬rule.target.IsMixed := by
  by_cases hnone : draft.rules = []
  · rw [build_no_rules hbuild hnone] at hindex
    cases hindex
  · obtain ⟨rules, hrules, hnet⟩ := build_rules hbuild hnone
    obtain rfl := Option.some.inj (hindex.symm.trans hnet)
    exact not_isMixed_of_rules hplain hrules

end Draft

namespace LabelScene

variable {c : LabelScene} {course : Course} {s : Labels} {finish : Finish} {it : Itinerary}
  {walks back : List Leg} {first : Ride}

/-- The first ride of the itinerary of a finish is boarded regularly, since no change leads to
it. -/
theorem first_regular_of_itinerary (h : c.itinerary? s finish = .ok (some it))
    (hj : c.Justified course s) (hnet : course.network.Sound)
    (hlegs : it.legs = walks ++ .ride first :: back) (hwalks : ∀ leg ∈ walks, leg.isRide = false) :
    first.constraint = .regular := by
  cases assembles_of_itinerary h with
  | @forward _ _ legs hd htraces hnew =>
    obtain ⟨-, -, huntimed, -⟩ := Itinerary.new_eq_ok hnew
    obtain ⟨walks', back', hlegs', hwalks', -⟩ := exists_ride_of_untimed huntimed hlegs
    have hparts : legs = back'.reverse ++ .ride first :: walks'.reverse := by
      rw [← List.reverse_reverse legs, hlegs']
      simp
    rw [hparts] at htraces
    obtain ⟨id', hsuffix⟩ := htraces.suffix
    apply hsuffix.first_regular hj hnet
    intro leg hleg
    exact walks_of_untimed hwalks' hwalks leg (List.mem_reverse.mp hleg)
  | reverse hd htraces _ hnew =>
    -- the ride that was boarded last takes the constraint that the search starts with
    obtain ⟨-, -, huntimed, -⟩ := Itinerary.new_eq_ok hnew
    obtain ⟨walks', back', hlegs', hwalks', -⟩ := exists_ride_of_untimed huntimed hlegs
    obtain ⟨before, ride, constraint, rest, -, rfl, -, hfound⟩ :=
      delayConstraints_eq_append_ride hlegs'
    exact (hfound (walks_of_untimed hwalks' hwalks)).2

end LabelScene

/-- A change that the rules settle under a constraint has a rule that decides on it, and this is
its constraint. -/
theorem Network.Settled.constraintBetween_eq {net : Network} {request : Request}
    {first second : Ride} {walk : Span} (h : net.Settled request first walk second)
    (hnet : net.Sound) (hfirst : net.Offers request.date first)
    (hsecond : net.Offers request.date second)
    (hplain : ∀ index, net.rules = some index →
      ∀ rule ∈ index.rules, ¬rule.source.IsMixed ∧ ¬rule.target.IsMixed)
    (hruled : second.constraint ≠ .regular) :
    ∃ index, net.rules = some index ∧
      index.constraintBetween first.trip first.alightPosition first.alightStop second.trip
        second.boardPosition = some second.constraint := by
  have hconstraint := h.constraint_eq hnet hfirst hsecond fun _ => hplain
  obtain ⟨found, ⟨index, search, t, hindex, -⟩, -⟩ := h
  refine ⟨index, rules_of_request hindex, ?_⟩
  rw [ConnectionScene.constraintBetween,
    show (ConnectionScene.ofRequest net request).rules = some index from hindex] at hconstraint
  change second.constraint = (index.constraintBetween first.trip first.alightPosition
    first.alightStop second.trip second.boardPosition).getD .regular at hconstraint
  cases hknown : index.constraintBetween first.trip first.alightPosition first.alightStop
      second.trip second.boardPosition with
  | none =>
    rw [hknown] at hconstraint
    exact absurd hconstraint hruled
  | some known =>
    rw [hknown] at hconstraint
    exact congrArg some hconstraint.symm

/-- The labels of the rides of a route in a network whose rules are declared by plain names. The
first ride is labelled as regular. A later ride that is not has the constraint that the rules of the
network ask for when the ride before it is left where it is, and this ride is boarded where it
is. -/
theorem route_constraints {draft : Draft} {net : Network} {request : Request}
    {result : RouteResult} {it : Itinerary} (hbuild : draft.build = .ok net)
    (hplain : ∀ rule ∈ draft.rules, rule.source.IsPlain ∧ rule.target.IsPlain)
    (hroute : net.route request = .ok result) (hit : it ∈ result.itineraries) :
    (∀ walks first back, it.legs = walks ++ .ride first :: back →
      (∀ leg ∈ walks, leg.isRide = false) → first.constraint = .regular) ∧
    ∀ front first between second back,
      it.legs = front ++ .ride first :: (between ++ .ride second :: back) →
      (∀ leg ∈ between, leg.isRide = false) → second.constraint ≠ .regular →
      ∃ index, net.rules = some index ∧
        index.constraintBetween first.trip first.alightPosition first.alightStop second.trip
          second.boardPosition = some second.constraint := by
  have hnet := Draft.build_sound hbuild
  constructor
  · intro walks first back hlegs hwalks
    obtain ⟨tariff, bounds, times, progress, e, hrun, -, hitinerary⟩ :=
      Network.exists_finish_of_mem_route hroute hit
    exact LabelScene.first_regular_of_itinerary hitinerary
      ((Network.yields_justified hnet).of_ok hrun) hnet hlegs hwalks
  · intro front first between second back hlegs hwalks hruled
    obtain ⟨⟨hfirst, -⟩, ⟨hsecond, -⟩, hsettled | ⟨⟨hregular, -⟩, -⟩⟩ :=
      Network.ruled_of_mem_route hnet hroute hit hlegs hwalks
    · apply hsettled.constraintBetween_eq hnet hfirst hsecond _ hruled
      intro index hindex
      exact Draft.not_isMixed_of_build hbuild hplain hindex
    · exact absurd hregular hruled

/-- An itinerary consists of two rides with a walk in between, and the change is guaranteed. -/
def changesGuaranteed (it : Itinerary) : Bool :=
  match it.legs with
  | [.ride _, .walk _, .ride second] => second.constraint == .guaranteed
  | _ => false

/-- Going back in time, the blue trip is chosen first, and the red trip under the rule that makes
the blue one wait. In the itinerary it is the blue ride that is guaranteed. -/
theorem route_constraints_twoLines : ∃ net result it first walk second index,
    twoLines.build = .ok net ∧
    (∀ rule ∈ twoLines.rules, rule.source.IsPlain ∧ rule.target.IsPlain) ∧
    net.route (fromAToD .reverse true) = .ok result ∧ it ∈ result.itineraries ∧
    it.legs = [.ride first, .walk walk, .ride second] ∧ first.constraint = .regular ∧
    second.constraint = .guaranteed ∧ net.rules = some index ∧
    index.constraintBetween first.trip first.alightPosition first.alightStop second.trip
      second.boardPosition = some .guaranteed := by
  have hfinds : twoLines.finds (fromAToD .reverse true) (fun _ it => changesGuaranteed it) = true := by
    decide +kernel
  obtain ⟨net, result, it, hbuild, hroute, hit, hguaranteed⟩ := Draft.exists_of_finds hfinds
  unfold changesGuaranteed at hguaranteed
  split at hguaranteed
  case h_2 => cases hguaranteed
  case h_1 first walk second hlegs =>
    have hguaranteed : second.constraint = .guaranteed := by simpa using hguaranteed
    have hplain : ∀ rule ∈ twoLines.rules, rule.source.IsPlain ∧ rule.target.IsPlain := by
      simp [twoLines, EndpointName.IsPlain]
    obtain ⟨hfirst, hlater⟩ := route_constraints hbuild hplain hroute hit
    obtain ⟨index, hindex, hknown⟩ := hlater [] first [.walk walk] second [] hlegs
      (by simp [Leg.isRide]) (by simp [hguaranteed])
    rw [hguaranteed] at hknown
    exact ⟨net, result, it, first, walk, second, index, hbuild, hplain, hroute, hit, hlegs,
      hfirst [] first _ hlegs (by simp), hguaranteed, hindex, hknown⟩

end JourneyPlanner
