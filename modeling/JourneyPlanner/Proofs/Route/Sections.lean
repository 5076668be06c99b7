import JourneyPlanner.Proofs.Itinerary.Sections
import JourneyPlanner.Proofs.Route.Rates
import JourneyPlanner.Proofs.Route.Refined
import JourneyPlanner.Proofs.Route.RuledChanges

/-!
# Sections of the answers of a search

The sections of an answer follow each other without gaps, and none of them ends before it starts, as
long as no trip goes back and no walk takes negative time. They overlap only in changes whose rule
leaves less time than the way to the next ride takes: a rule with a least time that stands for all
slacks asks for nothing else, and trips that wait do so for the walk alone, while the walk is put
after the slack of the ride before it.

* `Request.Hurries`: a change may leave less time than the way to the next ride takes.
* `Itinerary.Arranged.begins_or_hurried`: when the parts of an itinerary begin.
* `Network.answers_of_search`: where the walks of an answer are, and when its changes are made.
* `search_sections`: the sections of the answers of a search.
-/

namespace JourneyPlanner

/-- A ride on a trip whose times never go back, or a walk that takes no negative time. -/
def Leg.NeverGoesBack : Leg → Prop
  | .ride r => r.trip.NeverGoesBack
  | .walk stroll => 0 ≤ stroll.duration

instance (leg : Leg) : Decidable leg.NeverGoesBack :=
  match leg with
  | .ride r => inferInstanceAs (Decidable r.trip.NeverGoesBack)
  | .walk stroll => inferInstanceAs (Decidable (0 ≤ stroll.duration))

/-- An itinerary has two rides with nothing but walks between them. -/
def Itinerary.HasChange (it : Itinerary) (first : Ride) (between : List Leg) (second : Ride) :
    Prop :=
  (∀ leg ∈ between, leg.isRide = false) ∧
    ∃ before after, it.legs = before ++ .ride first :: (between ++ .ride second :: after)

/-- The seconds from the end of a ride to that of the walks to the next one. Without a walk, the
slack after the ride is not part of them. -/
def Slacks.wayTime (slacks : Slacks) (between : List Leg) : Span :=
  if between = [] then 0 else slacks.alight + walkedTime between

/-- What is known about a change may leave less time than the way to the next ride takes. A trip
that waits, or in which the traveller stays seated, leaves out the slack before the walk. A least
time that stands for all slacks may be shorter than the way. -/
def Request.Hurries (request : Request) (between : List Leg) : Constraint → Prop
  | .guaranteed | .staySeated => between ≠ [] ∧ 0 < request.slacks.alight
  | .minTime least => request.definitive = true ∧ least < request.slacks.wayTime between
  | .regular | .notAllowed => False

/-- A part of an itinerary is the ride after a change that may leave less time than the way to it
takes. -/
def Itinerary.IsHurried (it : Itinerary) (request : Request) (leg : Leg) : Prop :=
  ∃ first between second, it.HasChange first between second ∧
    request.Hurries between second.constraint ∧ leg = .ride second

/-! ### Changes -/

theorem walkedTime_eq_spans {between : List Leg} (hwalks : ∀ leg ∈ between, leg.isRide = false) :
    walkedTime between = Itinerary.spans between := by
  induction between with
  | nil => rfl
  | cons leg rest ih =>
    cases leg with
    | ride r => cases hwalks (.ride r) List.mem_cons_self
    | walk stroll =>
      rw [walkedTime, ih fun leg hleg => hwalks leg (List.mem_cons_of_mem _ hleg),
        Itinerary.spans_cons]
      rfl

/-- The rides that a connection joins are far enough apart for what is known about the change. -/
theorem ConnectionScene.Joins.feasible {s : ConnectionScene} {first second : Ride}
    {between : List Leg} (h : s.Joins first between second) :
    s.Feasible first.leaving second.boarding (walkedTime between) second.constraint := by
  obtain ⟨connection, hconnects, hsource, htarget, hwalk, hconstraint⟩ := h
  have hwalked : walkedTime between = connection.walkDuration := by
    rw [← connection.untimed_walkLegs] at hwalk
    rw [← walkedTime_congr hwalk, Connection.walkLegs, Connection.walkDuration]
    cases connection.walk with
    | none => rfl
    | some walk => exact Int.add_zero walk.duration
  have hfeasible := hconnects.feasible
  rwa [hsource, htarget, ← hwalked, hconstraint] at hfeasible

namespace Request

variable {net : Network} {request : Request} {first second : Ride} {between : List Leg}

/-- A change that is feasible leaves time for the way to the next ride, unless it is one that may
leave less. -/
theorem reaches_or_hurries (hslacks : request.slacks.Nonneg)
    (h : (ConnectionScene.ofRequest net request).Feasible first.leaving second.boarding
      (walkedTime between) second.constraint) :
    first.arrives + request.slacks.wayTime between ≤ second.departs ∨
      request.Hurries between second.constraint := by
  have hboard := hslacks.board
  have halight := hslacks.alight
  have htransfer := hslacks.transfer
  have hway : request.slacks.wayTime between ≤ request.slacks.alight + walkedTime between := by
    unfold Slacks.wayTime
    split
    case isTrue hnone =>
      subst hnone
      simpa [walkedTime] using halight
    case isFalse => exact le_rfl
  -- with all slacks there is time for the way
  have hregular : (ConnectionScene.ofRequest net request).regularBound first.leaving
      (walkedTime between) ≤ second.departs →
      first.arrives + request.slacks.wayTime between ≤ second.departs := by
    intro hbound
    change first.arrives + request.slacks.alight + walkedTime between + request.slacks.transfer +
      request.slacks.board ≤ second.departs at hbound
    linarith
  generalize second.constraint = constraint at h
  cases constraint with
  | regular => exact .inl (hregular h)
  | notAllowed => exact h.elim
  | guaranteed | staySeated =>
    change first.arrives + walkedTime between ≤ second.departs at h
    by_cases hhurries : between ≠ [] ∧ 0 < request.slacks.alight
    · exact .inr hhurries
    · left
      unfold Slacks.wayTime
      split
      case isTrue hnone =>
        subst hnone
        exact h
      case isFalse hsome =>
        have hnone : request.slacks.alight ≤ 0 := not_lt.mp fun hlt => hhurries ⟨hsome, hlt⟩
        linarith
  | minTime least =>
    obtain ⟨hleast, hbound⟩ := h
    change first.arrives + least ≤ second.departs at hleast
    by_cases hdefinitive : request.definitive = true
    · rcases le_or_gt (request.slacks.wayTime between) least with hle | hlt
      · left
        linarith
      · exact .inr ⟨hdefinitive, hlt⟩
    · exact .inl (hregular (hbound (Bool.eq_false_iff.mpr hdefinitive)))

end Request

/-- Where all changes are feasible, every part of an itinerary begins once the one before it is
over, but for the rides after changes that may leave less time than the way takes. -/
theorem Itinerary.Arranged.begins_or_hurried {net : Network} {request : Request} {it : Itinerary}
    {before after : List Leg} {leg : Leg} (h : it.Arranged request.slacks)
    (hslacks : request.slacks.Nonneg)
    (hfeasible : ∀ first between second, it.HasChange first between second →
      (ConnectionScene.ofRequest net request).Feasible first.leaving second.boarding
        (walkedTime between) second.constraint)
    (hlegs : it.legs = before ++ leg :: after) :
    lastEnd it.access.endTime before ≤ leg.begins ∨ it.IsHurried request leg := by
  rcases h.begins hslacks.board hslacks.alight hlegs with
    hbegins | ⟨front, first, between, second, rfl, rfl, hwalks, hend⟩
  · exact .inl hbegins
  · have hchange : it.HasChange first between second :=
      ⟨hwalks, front, after, by rw [hlegs, List.append_assoc, List.cons_append]⟩
    rw [hend, ← walkedTime_eq_spans hwalks]
    rcases Request.reaches_or_hurries hslacks (hfeasible _ _ _ hchange) with hreaches | hhurries
    · exact .inl hreaches
    · exact .inr ⟨first, between, second, hchange, hhurries, rfl⟩

/-! ### Answers of a search -/

/-- The itinerary of a route from which an answer of a search comes. -/
theorem Network.exists_refined_of_mem_search {net : Network} {request : Request}
    {result : SearchResult} {scored : ScoredItinerary} (hsearch : net.search request = .ok result)
    (hscored : scored ∈ result.itineraries) :
    ∃ found scene it, net.route request = .ok found ∧
      RefinementScene.ofRequest net request = .ok scene ∧ it ∈ found.itineraries ∧
      scene.refine it = .ok scored := by
  obtain ⟨found, hroute, hsearch⟩ := bind_eq_ok.mp hsearch
  obtain ⟨scene, hscene, hsearch⟩ := bind_eq_ok.mp hsearch
  obtain ⟨refined, hrefined, hsearch⟩ := bind_eq_ok.mp hsearch
  cases hsearch
  obtain ⟨it, hit, hrefine⟩ := RefinementScene.exists_of_mem_refineAll hrefined hscored
  exact ⟨found, scene, it, hroute, hscene, hit, hrefine⟩

/-- Every change of a route is feasible under what is known about it. -/
theorem Network.feasible_of_mem_route {net : Network} {request : Request} {result : RouteResult}
    {it : Itinerary} {first second : Ride} {between : List Leg} (hnet : net.Sound)
    (hroute : net.route request = .ok result) (hit : it ∈ result.itineraries)
    (hchange : it.HasChange first between second) :
    (ConnectionScene.ofRequest net request).Feasible first.leaving second.boarding
      (walkedTime between) second.constraint := by
  obtain ⟨hwalks, before, after, hlegs⟩ := hchange
  obtain ⟨⟨hfirst, -⟩, ⟨hsecond, -⟩, hruled⟩ := ruled_of_mem_route hnet hroute hit hlegs hwalks
  rcases hruled with hsettled | ⟨⟨hconstraint, hregular⟩, -⟩
  · exact hsettled.feasible hnet hfirst hsecond
  · rwa [hconstraint]

/-- The walks of an answer are next to its rides, all of which are offered, and every change is
feasible under what is known about it. -/
theorem Network.answers_of_search {net : Network} {request : Request} {result : SearchResult}
    {scored : ScoredItinerary} (hnet : net.Sound) (hsearch : net.search request = .ok result)
    (hscored : scored ∈ result.itineraries) :
    scored.itinerary.Arranged request.slacks ∧
      (∀ r ∈ scored.itinerary.rides, net.Offers request.date r) ∧
      ∀ first between second, scored.itinerary.HasChange first between second →
        (ConnectionScene.ofRequest net request).Feasible first.leaving second.boarding
          (walkedTime between) second.constraint := by
  obtain ⟨found, scene, it, hroute, hscene, hit, hrefine⟩ :=
    exists_refined_of_mem_search hsearch hscored
  obtain ⟨hconnections, hslacks⟩ := RefinementScene.ofRequest_eq_ok hscene
  have hnetwork : scene.connections.network = net := by rw [hconnections]; rfl
  obtain ⟨tariff, bounds, times, progress, e, hrun, -, hitinerary⟩ :=
    exists_finish_of_mem_route hroute hit
  have hoffers := LabelScene.offers_of_itinerary hitinerary
    ((yields_justified hnet).of_ok hrun) hnet labelScene_for
  have harranged := (LabelScene.times_of_itinerary hitinerary).2
  rw [labelScene_for.slacks_eq, ← hslacks] at harranged
  have hoffers : ∀ r ∈ it.rides, scene.connections.network.Offers request.date r := by
    rw [hnetwork]
    exact fun r hr => hoffers r (Itinerary.mem_rides.mp hr)
  have hjoins := RefinementScene.joins_of_refine (hnetwork ▸ hnet) hoffers hrefine
  rw [hnetwork, hconnections] at hjoins
  refine ⟨hslacks ▸ RefinementScene.arranged_of_refine harranged hrefine, hjoins.1, ?_⟩
  intro first between second hchange
  by_cases hkept : scored.itinerary = it
  · rw [hkept] at hchange
    exact feasible_of_mem_route hnet hroute hit hchange
  · obtain ⟨hwalks, before, after, hlegs⟩ := hchange
    exact (hjoins.2 hkept before first between second after hlegs hwalks).feasible

/-- The sections of an answer of a search tell of its parts, with waits between them. No section
ends before it starts, given that trips never go back and walks take no negative time. Each section
starts when the one before it ends, unless it tells of the ride after a change that may leave less
time than the way takes. With a least time, a change takes no less than this. -/
theorem search_sections {draft : Draft} {net : Network} {request : Request} {result : SearchResult}
    {scored : ScoredItinerary} {date : Date} {journey : Journey} (hbuild : draft.build = .ok net)
    (hslacks : request.slacks.Nonneg) (hsearch : net.search request = .ok result)
    (hscored : scored ∈ result.itineraries)
    (hjourney : Journey.ofItinerary net date scored.itinerary = .ok journey) :
    List.Forall₂ (Section.Tells net date) (journey.sections.filter (!·.isWait))
      scored.itinerary.legs ∧
    (∀ part ∈ journey.sections,
      (∀ leg ∈ scored.itinerary.legs, part.Tells net date leg → leg.NeverGoesBack) →
      0 ≤ part.startMoment.secondsTo part.endMoment) ∧
    (journey.sections.IsChain fun part next => part.endMoment = next.startMoment ∨
      ∃ leg, scored.itinerary.IsHurried request leg ∧ next.Tells net date leg) ∧
    ∀ first between second least, scored.itinerary.HasChange first between second →
      second.constraint = .minTime least → first.arrives + least ≤ second.departs := by
  have hnet := Draft.build_sound hbuild
  obtain ⟨harranged, hoffers, hfeasible⟩ := Network.answers_of_search hnet hsearch hscored
  obtain ⟨sections, hsections, hjourney⟩ := bind_eq_ok.mp hjourney
  obtain ⟨departure, -, hjourney⟩ := bind_eq_ok.mp hjourney
  obtain ⟨arrival, -, hjourney⟩ := bind_eq_ok.mp hjourney
  cases hjourney
  obtain ⟨htold, hparts⟩ := Journey.sectionsFrom_tell hsections
  refine ⟨htold, fun part hpart hforward => ?_, ?_, ?_⟩
  · rcases hparts part hpart with ⟨leg, hleg, htells⟩ | ⟨-, hwait⟩
    · rw [htells.lasts.secondsTo, harranged.ends_sub_begins hleg]
      have hforward := hforward leg hleg htells
      cases leg with
      | ride r =>
        have hoffer := hoffers r (Itinerary.mem_rides.mpr hleg)
        exact sub_nonneg.mpr (hoffer.departs_le_arrives hnet hforward)
      | walk stroll => exact hforward
    · exact hwait.le
  · exact (Journey.sectionsFrom_isChain hsections fun before leg after hlegs =>
      harranged.begins_or_hurried hslacks hfeasible hlegs).1
  · intro first between second least hchange hleast
    have hchange := hfeasible first between second hchange
    rw [hleast] at hchange
    exact hchange.1

/-- A red line from A to B, which it reaches two minutes before a trip of the blue line leaves C for
D, and a walk from B to C. -/
def redThenBlue (walk : Span) (rules : List RuleDraft) : Draft :=
  { Draft.new Draft.defaultDate with
    routes := #[⟨"red", 0⟩, ⟨"blue", 0⟩]
    trips := #[
      ⟨"red 1", 0, Draft.defaultCalendar,
        [⟨"A", 36000, 36000, .boardAndAlight⟩, ⟨"B", 36600, 36600, .boardAndAlight⟩]⟩,
      ⟨"blue 1", 1, Draft.defaultCalendar,
        [⟨"C", 36720, 36720, .boardAndAlight⟩, ⟨"D", 37800, 37800, .boardAndAlight⟩]⟩]
    walks := [⟨"B", "C", walk⟩]
    rules }

/-- A question about the way from A to D, where least transfer times stand for all slacks. -/
def byLeastTime : Request :=
  { fromAToD .forward true with
    definitive := true
    refinement := { weighWaits := false } }

def minuteFromBToC : RuleDraft := ⟨.stop "B", .stop "C", .minTime 60⟩

/-- The journey of some answer to a request in the network of a draft has a property. -/
def Draft.tells (draft : Draft) (request : Request) (P : ScoredItinerary → Journey → Bool) : Bool :=
  draft.answers request fun scored =>
    match draft.build with
    | .error _ => false
    | .ok net =>
      match Journey.ofItinerary net request.date scored.itinerary with
      | .error _ => false
      | .ok journey => P scored journey

theorem Draft.exists_of_tells {draft : Draft} {request : Request}
    {P : ScoredItinerary → Journey → Bool} (h : draft.tells request P = true) :
    ∃ net result scored journey, draft.build = .ok net ∧ net.search request = .ok result ∧
      scored ∈ result.itineraries ∧
      Journey.ofItinerary net request.date scored.itinerary = .ok journey ∧
      P scored journey = true := by
  obtain ⟨net, result, scored, hbuild, hsearch, hscored, hP⟩ := exists_of_answers h
  simp only [hbuild] at hP
  cases hjourney : Journey.ofItinerary net request.date scored.itinerary with
  | error fault =>
    simp only [hjourney] at hP
    cases hP
  | ok journey =>
    simp only [hjourney] at hP
    exact ⟨net, result, scored, journey, hbuild, hsearch, hscored, hjourney, hP⟩

/-- With a least time of a minute, the traveller has to leave C two minutes after the arrival at B,
in the middle of the walk between them. -/
theorem search_sections_byLeastTime : ∃ net result scored journey,
    (redThenBlue 300 [minuteFromBToC]).build = .ok net ∧ byLeastTime.slacks.Nonneg ∧
    net.search byLeastTime = .ok result ∧ scored ∈ result.itineraries ∧
    Journey.ofItinerary net byLeastTime.date scored.itinerary = .ok journey ∧
    scored.itinerary.rides.map (·.constraint) = [.regular, .minTime 60] ∧
    journey.sections.map (fun part => (part.startMoment.second, part.endMoment.second)) =
      [(36000, 36600), (36600, 36900), (36720, 37800)] ∧
    List.Forall₂ (Section.Tells net byLeastTime.date) (journey.sections.filter (!·.isWait))
      scored.itinerary.legs ∧
    (∀ part ∈ journey.sections, 0 ≤ part.startMoment.secondsTo part.endMoment) ∧
    (journey.sections.IsChain fun part next => part.endMoment = next.startMoment ∨
      ∃ leg, scored.itinerary.IsHurried byLeastTime leg ∧ next.Tells net byLeastTime.date leg) ∧
    ∀ first between second least, scored.itinerary.HasChange first between second →
      second.constraint = .minTime least → first.arrives + least ≤ second.departs := by
  have htells : (redThenBlue 300 [minuteFromBToC]).tells byLeastTime (fun scored journey => decide (
      (∀ leg ∈ scored.itinerary.legs, leg.NeverGoesBack) ∧
      scored.itinerary.rides.map (·.constraint) = [.regular, .minTime 60] ∧
      journey.sections.map (fun part => (part.startMoment.second, part.endMoment.second)) =
        [(36000, 36600), (36600, 36900), (36720, 37800)])) = true := by
    decide +kernel
  obtain ⟨net, result, scored, journey, hbuild, hsearch, hscored, hjourney, hfacts⟩ :=
    Draft.exists_of_tells htells
  obtain ⟨hforward, hconstraints, htimes⟩ := of_decide_eq_true hfacts
  have hslacks : byLeastTime.slacks.Nonneg := ⟨by decide, by decide, by decide⟩
  obtain ⟨htold, htake, hchain, hleast⟩ :=
    search_sections hbuild hslacks hsearch hscored hjourney
  exact ⟨net, result, scored, journey, hbuild, hslacks, hsearch, hscored, hjourney, hconstraints,
    htimes, htold, fun part hpart => htake part hpart fun leg hleg _ => hforward leg hleg, hchain,
    hleast⟩

/-- A question about the way from A to D, asked by somebody who takes a minute to alight. -/
def alightingSlowly : Request :=
  { fromAToD .forward true with
    slacks := { alight := 60 }
    refinement := { weighWaits := false } }

/-- The rule that the blue trip waits for the travellers of the red one. -/
def blueWaitsForRed : RuleDraft := ⟨.tripStop "red 1" 1, .tripStop "blue 1" 0, .guaranteed⟩

/-- Sections may overlap, though no trip goes back and no walk takes negative time: under a least
time that is shorter than the way, and in a guaranteed change, where the walk of two minutes starts
a minute after the arrival at B and the blue trip leaves C two minutes after it. And a walk that
takes negative time ends before it starts. -/
theorem search_sections_overlap :
    (∃ net result scored journey, (redThenBlue 300 [minuteFromBToC]).build = .ok net ∧
      byLeastTime.slacks.Nonneg ∧ net.search byLeastTime = .ok result ∧
      scored ∈ result.itineraries ∧
      Journey.ofItinerary net byLeastTime.date scored.itinerary = .ok journey ∧
      (∀ leg ∈ scored.itinerary.legs, leg.NeverGoesBack) ∧
      ¬journey.sections.IsChain fun part next => part.endMoment = next.startMoment) ∧
    (∃ net result scored journey, (redThenBlue 120 [blueWaitsForRed]).build = .ok net ∧
      alightingSlowly.slacks.Nonneg ∧ net.search alightingSlowly = .ok result ∧
      scored ∈ result.itineraries ∧
      Journey.ofItinerary net alightingSlowly.date scored.itinerary = .ok journey ∧
      scored.itinerary.rides.map (·.constraint) = [.regular, .guaranteed] ∧
      journey.sections.map (fun part => (part.startMoment.second, part.endMoment.second)) =
        [(36000, 36600), (36600, 36660), (36660, 36780), (36720, 37800)] ∧
      (∀ leg ∈ scored.itinerary.legs, leg.NeverGoesBack) ∧
      ¬journey.sections.IsChain fun part next => part.endMoment = next.startMoment) ∧
    ∃ net result scored journey, (redThenBlue (-60) []).build = .ok net ∧
      byLeastTime.slacks.Nonneg ∧ net.search byLeastTime = .ok result ∧
      scored ∈ result.itineraries ∧
      Journey.ofItinerary net byLeastTime.date scored.itinerary = .ok journey ∧
      (∀ r ∈ scored.itinerary.rides, r.trip.NeverGoesBack) ∧
      ∃ part ∈ journey.sections, part.startMoment.secondsTo part.endMoment < 0 := by
  have hslacks : byLeastTime.slacks.Nonneg := ⟨by decide, by decide, by decide⟩
  refine ⟨?_, ?_, ?_⟩
  · have htells : (redThenBlue 300 [minuteFromBToC]).tells byLeastTime
        (fun scored journey => decide ((∀ leg ∈ scored.itinerary.legs, leg.NeverGoesBack) ∧
          ¬journey.sections.IsChain fun part next => part.endMoment = next.startMoment)) =
        true := by
      decide +kernel
    obtain ⟨net, result, scored, journey, hbuild, hsearch, hscored, hjourney, hfacts⟩ :=
      Draft.exists_of_tells htells
    exact ⟨net, result, scored, journey, hbuild, hslacks, hsearch, hscored, hjourney,
      of_decide_eq_true hfacts⟩
  · have htells : (redThenBlue 120 [blueWaitsForRed]).tells alightingSlowly
        (fun scored journey => decide (
          scored.itinerary.rides.map (·.constraint) = [.regular, .guaranteed] ∧
          journey.sections.map (fun part => (part.startMoment.second, part.endMoment.second)) =
            [(36000, 36600), (36600, 36660), (36660, 36780), (36720, 37800)] ∧
          (∀ leg ∈ scored.itinerary.legs, leg.NeverGoesBack) ∧
          ¬journey.sections.IsChain fun part next => part.endMoment = next.startMoment)) =
        true := by
      decide +kernel
    obtain ⟨net, result, scored, journey, hbuild, hsearch, hscored, hjourney, hfacts⟩ :=
      Draft.exists_of_tells htells
    exact ⟨net, result, scored, journey, hbuild, ⟨by decide, by decide, by decide⟩, hsearch,
      hscored, hjourney, of_decide_eq_true hfacts⟩
  · have htells : (redThenBlue (-60) []).tells byLeastTime
        (fun scored journey => decide ((∀ r ∈ scored.itinerary.rides, r.trip.NeverGoesBack) ∧
          ∃ part ∈ journey.sections, part.startMoment.secondsTo part.endMoment < 0)) = true := by
      decide +kernel
    obtain ⟨net, result, scored, journey, hbuild, hsearch, hscored, hjourney, hfacts⟩ :=
      Draft.exists_of_tells htells
    exact ⟨net, result, scored, journey, hbuild, hslacks, hsearch, hscored, hjourney,
      of_decide_eq_true hfacts⟩

end JourneyPlanner
