import JourneyPlanner.Proofs.Route.Journeys
import JourneyPlanner.Proofs.Route.RuledChanges
import JourneyPlanner.Proofs.Transfer.Facilitated

/-!
# Routes under rules that facilitate changes

Rules that only facilitate changes do not make a route arrive later, as long as they pass over no
trip: a rule about the change to a trip is chosen before any trip without a rule, however much
sooner it could be boarded.

* `Network.SkipsNone`: the rules of a network pass over no trip.
* `Network.prompt_of_skipsNone`: no trip is boarded later than one that needs no rule.
* `Draft.withRules`: a draft with other rules.
* `route_facilitated`: with the rules a route arrives no later than without them.
* `Draft.Delays`, `route_delayed`: rules that pass over a trip, and rules that lead to a way which
  bounds do not reach, make a route arrive later.
-/

namespace JourneyPlanner

/-! ### Rules that pass over no trip -/

/-- The rules say something about the change from a ride to a trip. -/
def RuleIndex.AreAbout (index : RuleIndex) (first : Ride) (trip : Trip) (position : Nat) : Prop :=
  index.constraintBetween first.trip first.alightPosition first.alightStop trip position ≠ none

/-- A trip runs on a date after the trip of a ride, in the same timetable. -/
def Network.RunsAfter (net : Network) (date : Date) (r : Ride) (later : Trip) : Prop :=
  ∃ (t : Timetable) (rank rank' : Nat), net.timetables[r.trip.pattern]? = some t ∧
    t.trips[rank]? = some r.trip ∧ t.trips[rank']? = some later ∧ rank < rank' ∧ net.RunsOn date later

/-- The rules pass over no trip: where they say something about the change from a ride to a trip,
they also do about each trip before it to which the change can be made without their help, and none
of these departs before the ride arrives. -/
def Network.SkipsNone (net : Network) (request : Request) : Prop :=
  ∀ index first between second later, request.rules net = some index →
    net.Offers request.date first → net.Offers request.date second →
    net.IsChange request.slacks first between second → second.constraint = .regular →
    net.RunsAfter request.date second later → index.AreAbout first later second.boardPosition →
    index.AreAbout first second.trip second.boardPosition ∧ first.arrives ≤ second.departs

namespace LabelScene

variable {c : LabelScene} {course : Course} {request : Request} {s : Labels} {id : LabelId}
  {label : Label} {ride : SearchRide} {stop : StopId}

/-- A label after a ride follows it, directly or by a declared walk. -/
theorem Justified.exists_follows (hj : c.Justified course s) (hlabel : s.arena[id]? = some label)
    (hlast : s.lastRide label = .ok (some (ride, stop))) :
    ∃ (walk : Span) (id' previous : LabelId) (ended : Label), Follows s label ride stop walk ∧
      s.arena[id']? = some ended ∧ ended.origin = .ride ride previous ∧ ended.stop = stop ∧
      ((walk = 0 ∧ stop = label.stop) ∨ (stop ≠ label.stop ∧
        course.network.HasWalk (match c.direction with
          | .forward => ⟨stop, label.stop, walk⟩
          | .reverse => ⟨label.stop, stop, walk⟩))) := by
  unfold Labels.lastRide at hlast
  cases horigin : label.origin with
  | access leg =>
    rw [horigin] at hlast
    cases hlast
  | ride ride' previous =>
    rw [horigin] at hlast
    obtain ⟨rfl, rfl⟩ := Prod.mk.inj (Option.some.inj (Except.ok.inj hlast))
    exact ⟨0, id, previous, label, .direct horigin, hlabel, horigin, rfl, .inl ⟨rfl, rfl⟩⟩
  | walk source duration middle =>
    obtain ⟨-, before, hbefore, -, rfl, hne, hwalk⟩ := (hj.label hlabel).walk_inv horigin
    simp only [horigin, Labels.label, fetch_of_getElem? hbefore, bind, Except.bind] at hlast
    cases hride : before.origin with
    | access | walk =>
      simp only [hride] at hlast
      cases hlast
    | ride ride' previous =>
      simp only [hride] at hlast
      obtain ⟨rfl, rfl⟩ := Prod.mk.inj (Option.some.inj (Except.ok.inj hlast))
      exact ⟨duration, middle, previous, before, .walked horigin hbefore hride, hbefore, hride, rfl,
        .inr ⟨hne, hwalk⟩⟩

/-- A ride that can be boarded regularly at a label after another ride can follow that ride. -/
theorem Justified.exists_change (hj : c.Justified course s) (hnet : course.network.Sound)
    (hfor : c.For course request) (hd : c.direction = .forward)
    (hlabel : s.arena[id]? = some label) (hlast : s.lastRide label = .ok (some (ride, stop)))
    {second : Ride} (hsecond : second.Timed) (hboard : label.stop = second.boardStop)
    (hregular : second.constraint = .regular) (hinTime : c.earliest label ≤ second.departs)
    {position : Nat} :
    ∃ (first : Ride) (between : List Leg), course.network.Offers request.date first ∧
      course.network.IsChange request.slacks first between second ∧
      first.trip = ride.trip ∧ first.alightPosition = ride.alightPosition ∧
      first.alightStop = stop ∧ first.arrives = ride.alightTime ∧
      first.arrives + request.slacks.alight + (c.changeAt label ride stop position).walk +
        request.slacks.transfer + request.slacks.board ≤ second.departs := by
  obtain ⟨walk, id', previous, ended, hfollows, hended, hride, rfl, hplace⟩ :=
    hj.exists_follows hlabel hlast
  obtain ⟨hoffers, htimed⟩ := (hj.label hended).offers hride hnet hfor.services_eq
  have halight := ((hj.label hended).ride_times hride hnet).2
  have hearliest := hfollows.earliest_eq hnet hj hlabel
  let first : Ride := ⟨ride.trip, ride.boardPosition, ride.alightPosition, ride.boardStop,
    ended.stop, ride.constraint⟩
  have hfirst : c.realRide ride ended.stop = first := by
    unfold realRide
    rw [hd]
  rw [hfirst] at hoffers htimed
  rw [hd] at halight
  change ride.alightTime = first.arrives at halight
  have hslack : first.arrives + request.slacks.alight + walk + request.slacks.transfer +
      request.slacks.board ≤ second.departs := by
    rw [hearliest, hd, hfor.slacks_eq, halight] at hinTime
    simp only [Direction.shift, Slacks.afterAlighting, Slacks.beforeBoarding] at hinTime
    linarith
  have htimely : request.slacks.Timely first walk second := by
    refine ⟨_, _, htimed.alight, hsecond.board, ?_⟩
    rw [hregular]
    exact hslack
  rw [hfollows.changeAt_walk]
  rcases hplace with ⟨rfl, hmeets⟩ | ⟨hne, hwalk⟩
  · exact ⟨first, [], hoffers, .inl ⟨rfl, hmeets.trans hboard, htimely⟩, rfl, rfl, rfl,
      halight.symm, hslack⟩
  · rw [hd] at hwalk
    exact ⟨first, [.walk (.untimed ended.stop label.stop walk)], hoffers,
      .inr ⟨_, rfl, rfl, hboard, hne, hwalk, htimely⟩, rfl, rfl, rfl, halight.symm, hslack⟩

end LabelScene

namespace Network

variable {net : Network} {request : Request} {tariff : Tariff} {bounds : Option Bounds}
  {index : RuleIndex} {s : Labels} {id : LabelId} {label : Label} {p : Pattern} {t : Timetable}
  {i rank : Nat} {ride : SearchRide} {rideStop : StopId} {trip later : Trip} {second : Ride}

/-- The rules of a pattern for a request that departs after a time. -/
def forwardSearch (request : Request) (index : RuleIndex) (p : Pattern) : RuleSearch :=
  ⟨.forward, index.forward.getD p.id ⟨#[]⟩, index.stations, request.definitive⟩

/-- Where all rules facilitate changes, the ruling about a trip of a pattern does if there is a rule
about it. -/
theorem isFacilitated_ruling_iff (hnet : net.Sound) (hindex : request.rules net = some index)
    (hfacilitates : index.Facilitates) (hp : net.patterns[i]? = some p)
    (ht : net.timetables[i]? = some t) (hrank : t.trips[rank]? = some trip) {change : Change} :
    ((forwardSearch request index p).ruling change trip).isFacilitated = true ↔
      index.constraintBetween change.source change.sourcePosition change.sourceStop trip
        change.position ≠ none := by
  obtain ⟨rules, hbuilt⟩ := hnet.rules_eq (rules_of_request hindex)
  have hpattern : p.id = trip.pattern := by
    rw [hnet.pattern_id hp, hnet.trip_pattern ht hrank]
  rw [forwardSearch, hpattern]
  exact RuleSearch.isFacilitated_ruling_iff hbuilt hfacilitates

/-- Where all rules facilitate changes, so do those that may apply to a change. -/
theorem isFacilitated_of_mem_candidates (hnet : net.Sound)
    (hindex : request.rules net = some index) (hfacilitates : index.Facilitates) {change : Change}
    {entry : RuleEntry} (hentry : entry ∈ (forwardSearch request index p).candidates change) :
    entry.constraint.isFacilitated = true := by
  obtain ⟨rules, rfl⟩ := hnet.rules_eq (rules_of_request hindex)
  obtain ⟨rule, hrule, hconstraint⟩ :=
    RuleIndex.exists_rule_of_mem_forward (List.mem_filter.mp hentry).1
  rw [hconstraint]
  exact hfacilitates rule hrule

/-- A ride that can be made regularly after another one is one that the rules help to board, if they
help to board a trip that runs after it. -/
theorem SkipsNone.helps (hskips : net.SkipsNone request) (hnet : net.Sound)
    (hd : request.direction = .forward) (hslacks : request.slacks.Nonneg)
    (hindex : request.rules net = some index) (hfacilitates : index.Facilitates)
    (hj : (net.labelScene request tariff bounds).Justified (net.labelCourse request) s)
    (hlabel : s.arena[id]? = some label) (hlast : s.lastRide label = .ok (some (ride, rideStop)))
    (hoffers : net.Offers request.date second) (hstop : label.stop = second.boardStop)
    (hregular : second.constraint = .regular)
    (hinTime : (net.labelScene request tariff bounds).earliest label ≤ second.departs)
    (hp : net.patterns[second.trip.pattern]? = some p)
    (hlater : net.RunsAfter request.date second later) {accepts : Trip → Bool}
    (haccepts : accepts second.trip = true)
    (hruling : ((forwardSearch request index p).ruling ((net.labelScene request tariff
      bounds).changeAt label ride rideStop second.boardPosition) later).isFacilitated = true) :
    (forwardSearch request index p).Helps ((net.labelScene request tariff bounds).changeAt label
      ride rideStop second.boardPosition) accepts second.trip := by
  obtain ⟨first, between, hfirst, hchange, hsource, hsourcePosition, hsourceStop, harrives,
    hdeparts⟩ := hj.exists_change hnet labelScene_for hd hlabel hlast (hoffers.timed hnet) hstop
    hregular hinTime
  have hafter := hlater
  obtain ⟨t, rank, rank', ht, hrank, hrank', -⟩ := hafter
  -- a ruling is about the rides of the change
  have habout : ∀ {rank : Nat} {trip : Trip}, t.trips[rank]? = some trip →
      (((forwardSearch request index p).ruling ((net.labelScene request tariff
        bounds).changeAt label ride rideStop second.boardPosition) trip).isFacilitated = true ↔
          index.AreAbout first trip second.boardPosition) := by
    intro rank trip hrank
    rw [RuleIndex.AreAbout, hsource, hsourcePosition, hsourceStop]
    exact isFacilitated_ruling_iff hnet hindex hfacilitates hp ht hrank
  obtain ⟨hrules, hsooner⟩ := hskips index first between second later hindex hfirst hoffers hchange
    hregular hlater ((habout hrank').mp hruling)
  rw [harrives] at hsooner hdeparts
  have hboard := hslacks.board
  have halight := hslacks.alight
  have htransfer := hslacks.transfer
  have hwalked : ride.alightTime + ((net.labelScene request tariff bounds).changeAt label ride
      rideStop second.boardPosition).walk ≤ second.departs := by linarith
  exact ⟨haccepts, Direction.noLater_forward.mpr hsooner, (habout hrank).mpr hrules,
    Direction.noLater_forward.mpr hwalked⟩

/-- Rules that facilitate changes and pass over no trip do not make a search board a trip later than
one that needs no rule. -/
theorem prompt_of_skipsNone (hnet : net.Sound) (hd : request.direction = .forward)
    (hslacks : request.slacks.Nonneg)
    (hfacilitates : ∀ index, request.rules net = some index → index.Facilitates)
    (hskips : net.SkipsNone request) :
    (net.labelScene request tariff bounds).Prompt (net.labelCourse request) := by
  intro s id label i boardPosition position target p t trip chosen _ hj hlabel hp ht htrip hruns
    hstop hboards htarget halights hprecedes hinTime hchoose
  let c := net.labelScene request tariff bounds
  have hdc : c.direction = .forward := hd
  have hsound := hnet.timetable_sound hp ht
  have hposition := (Array.getElem?_eq_some_iff.mp hstop).1
  change c.choose s t (c.ruleSearch p) id label label.stop boardPosition = .ok chosen at hchoose
  cases hruled : c.ruled s t (c.ruleSearch p) label boardPosition with
  | error fault =>
    simp only [LabelScene.choose, hruled, bind, Except.bind] at hchoose
    cases hchoose
  | ok ruled =>
    cases ruled with
    | none =>
      -- the rules leave the choice to the regular search
      have hregular : c.choose s t none id label label.stop boardPosition = .ok chosen := by
        rw [← hchoose, LabelScene.choose, LabelScene.choose, hruled]
        rfl
      exact LabelScene.exists_of_choose_regular hsound hposition htrip hruns hinTime hregular
    | some ruled =>
      obtain ⟨found, rideEnd⟩ := ruled
      obtain ⟨search, ride, rideStop, hsearch, hlast, hfind, -⟩ := LabelScene.ruled_eq_some hruled
      obtain ⟨index, hindex, hsearch⟩ := Option.map_eq_some_iff.mp hsearch
      have hfacilitates := hfacilitates index hindex
      obtain ⟨rank, hrank⟩ := Array.mem_iff_getElem?.mp htrip
      obtain rfl : forwardSearch request index p = search := by
        rw [← hsearch, hdc]
        rfl
      have hsettles := (RuleSearch.yields_find hsound hposition).of_ok hfind found rfl
      obtain ⟨hhelps, hfirst⟩ :=
        (RuleSearch.yields_find_first rfl hsound hposition fun entry hentry =>
          isFacilitated_of_mem_candidates hnet hindex hfacilitates hentry).of_ok hfind found rfl
      have hallowed : found.constraint.isNotAllowed = false := by
        rw [hsettles.constraint]
        exact Constraint.isNotAllowed_of_isFacilitated hhelps.facilitated
      simp only [LabelScene.choose, hruled, bind, Except.bind, hallowed, Bool.false_eq_true,
        if_false] at hchoose
      obtain rfl := Except.ok.inj hchoose
      refine ⟨_, _, rfl, ?_⟩
      rcases le_or_gt found.rank rank with hle | hlt
      · refine hsound.alightingAt_noLater ?_ hsettles.trip hrank position
        change request.direction.RankNoLater _ _
        rwa [hd]
      -- the rules would help to board the trip, which comes before the one that they settle
      · rw [hdc] at hboards halights hprecedes hinTime
        have hpattern := hnet.trip_pattern ht hrank
        rw [← hpattern] at hp ht
        let second : Ride := ⟨trip, boardPosition, position, label.stop, target, .regular⟩
        have hoffers : net.Offers request.date second :=
          ⟨p, t, hp, ht, htrip, LabelScene.runsOn_of_runs rfl hruns, of_decide_eq_true hprecedes,
            hboards, halights, hstop, htarget⟩
        have hlater : net.RunsAfter request.date second found.trip :=
          ⟨t, rank, found.rank, ht, hrank, hsettles.trip, hlt,
            LabelScene.runsOn_of_runs rfl hhelps.accepted⟩
        exact absurd (hskips.helps hnet hd hslacks hindex hfacilitates hj hlabel hlast hoffers rfl
          rfl (Direction.noLater_forward.mp hinTime) hp hlater hruns hhelps.facilitated)
          (hfirst rank trip hrank hlt)

end Network

/-! ### Networks with and without rules -/

namespace Draft

def withRules (draft : Draft) (rules : List RuleDraft) : Draft := { draft with rules }

/-- Rules change nothing of a network but its rules. -/
theorem build_withRules {draft : Draft} {plain net : Network} {rules : List RuleDraft}
    (hnone : draft.rules = []) (hplain : draft.build = .ok plain)
    (hbuild : (draft.withRules rules).build = .ok net)
    (hfacilitates : ∀ rule ∈ rules, rule.constraint.isFacilitated = true) :
    plain.rules = none ∧ ∃ found, net = { plain with rules := found } ∧
      ∀ index, found = some index → index.Facilitates := by
  obtain ⟨bare, hbare, hplain⟩ := bind_eq_ok.mp hplain
  obtain ⟨bare', hbare', hbuild⟩ := bind_eq_ok.mp hbuild
  have hsame : (draft.withRules rules).buildWithoutRules = draft.buildWithoutRules := rfl
  obtain rfl := Except.ok.inj (hbare'.symm.trans (hsame.trans hbare))
  have hrules := (buildWithoutRules_sound hbare).2
  rw [hnone] at hplain
  obtain rfl : bare' = plain := Except.ok.inj hplain
  refine ⟨hrules, ?_⟩
  cases hempty : (draft.withRules rules).rules.isEmpty with
  | true =>
    simp only [hempty, if_true] at hbuild
    cases hbuild
    exact ⟨none, by rw [← hrules], by simp⟩
  | false =>
    simp only [hempty, Bool.false_eq_true, if_false] at hbuild
    obtain ⟨resolved, hresolved, hbuild⟩ := bind_eq_ok.mp hbuild
    cases hbuild
    refine ⟨_, rfl, ?_⟩
    rintro _ ⟨⟩ rule hrule
    obtain ⟨declared, hdeclared, hresolve⟩ := exists_of_mem_mapM hresolved hrule
    obtain ⟨source, -, hresolve⟩ := bind_eq_ok.mp hresolve
    obtain ⟨target, -, hresolve⟩ := bind_eq_ok.mp hresolve
    cases hresolve
    exact hfacilitates declared hdeclared

end Draft

/-- Rules that facilitate changes and pass over no trip do not make a route that departs after a
time arrive later: for each itinerary without them whose parts are short, there is one with them
that arrives no later, with no more transfers. -/
theorem route_facilitated {draft : Draft} {plain net : Network} {rules : List RuleDraft}
    {request : Request} {result : RouteResult} {it : Itinerary} {n : Nat}
    (hnone : draft.rules = []) (hplain : draft.build = .ok plain)
    (hfacilitates : ∀ rule ∈ rules, rule.constraint.isFacilitated = true)
    (hbuild : (draft.withRules rules).build = .ok net) (hd : request.direction = .forward)
    (haccess : ∀ leg ∈ request.access, leg.onBoard = false)
    (hegress : ∀ leg ∈ request.egress, leg.onBoard = false) (hslacks : request.slacks.Nonneg)
    (hskips : net.SkipsNone request) (hroute : plain.route request = .ok result)
    (hit : it ∈ result.itineraries) (hn : n ≤ request.maxTransfers) (hfew : it.transferCount ≤ n)
    (hshort : ∀ rest, rest <:+ it.legs →
      Itinerary.spans rest + it.egress.leg.duration < unreached) :
    Yields (net.route request) fun result' => ∃ it' ∈ result'.itineraries,
      it'.transferCount ≤ n ∧ it'.endTime ≤ it.endTime := by
  have hsound := Draft.build_sound hplain
  have hnet := Draft.build_sound hbuild
  obtain ⟨hunruled, found, rfl, hfound⟩ := Draft.build_withRules hnone hplain hbuild hfacilitates
  have hrules : request.rules plain = none := by
    unfold Request.rules
    rw [hunruled]
    split <;> rfl
  obtain ⟨hjourney, hend, htransfers⟩ :=
    Network.isJourney_of_mem_route hsound hd hrules haccess hegress hroute hit hshort
  -- a journey is one whatever the rules are
  have hsame : Network.IsJourney { plain with rules := found } request it.access.leg it.legs
      it.egress.leg :=
    ⟨⟨hjourney.realizes.1, hjourney.realizes.2, hjourney.realizes.3, hjourney.realizes.4,
      hjourney.realizes.5, hjourney.realizes.6, hjourney.realizes.7⟩, hjourney.2, hjourney.3,
      hjourney.4⟩
  refine (Network.yields_route_journey hnet hd (fun tariff bounds => Network.prompt_of_skipsNone hnet
    hd hslacks (fun index hindex => hfound index (Network.rules_of_request hindex)) hskips) hslacks
    haccess hegress hsame (by omega)).mono ?_
  rintro result' - ⟨it', hit', hfewer, hsooner⟩
  exact ⟨it', hit', by omega, hsooner.trans_eq hend.symm⟩

/-! ### Examples -/

/-- Rules that are about no trip but the first of each timetable pass over none. -/
theorem Network.skipsNone_of_first {net : Network} {request : Request}
    (h : ∀ index, net.rules = some index → ∀ t ∈ net.timetables, ∀ later ∈ t.trips.toList.drop 1,
      ∀ entries ∈ (index.forward.getD later.pattern ⟨#[]⟩).entries, ∀ e ∈ entries,
        e.appliesTo later = false) : net.SkipsNone request := by
  rintro index first - second later hindex - - - - ⟨t, rank, rank', ht, -, hlater, hlt, -⟩ habout
  refine absurd ?_ habout
  have hmem : later ∈ t.trips.toList.drop 1 := by
    refine List.mem_of_getElem? (i := rank' - 1) ?_
    rw [List.getElem?_drop, Nat.add_sub_cancel' (by omega)]
    simpa using hlater
  have hentries := h index (rules_of_request hindex) t (Array.mem_of_getElem? ht) later hmem
  unfold RuleIndex.constraintBetween
  rw [Array.getD_eq_getD_getElem?] at hentries
  cases hfound : index.forward[later.pattern]? with
  | none => rfl
  | some found =>
    rw [hfound, Option.getD_some] at hentries
    have hnone : (found.entriesAt second.boardPosition).find? (fun entry => entry.appliesTo later &&
        entry.source.designates first.trip first.alightPosition first.alightStop
          (stationOf index.stations first.alightStop)) = none := by
      refine List.find?_eq_none.mpr fun e he => ?_
      rw [PatternRules.entriesAt, Array.getD_eq_getD_getElem?] at he
      cases hat : found.entries[second.boardPosition]? with
      | none => simp [hat] at he
      | some entries =>
        rw [hat] at he
        simp [hentries entries (Array.mem_of_getElem? hat) e he]
    simp [hnone]

/-- The routes of a request without rules and with rules stand in a relation. -/
def Draft.compares (draft : Draft) (rules : List RuleDraft) (request : Request)
    (P : Network → RouteResult → RouteResult → Bool) : Bool :=
  match draft.build, (draft.withRules rules).build with
  | .ok plain, .ok net =>
    match plain.route request, net.route request with
    | .ok result, .ok result' => P net result result'
    | _, _ => false
  | _, _ => false

theorem Draft.exists_of_compares {draft : Draft} {rules : List RuleDraft} {request : Request}
    {P : Network → RouteResult → RouteResult → Bool} (h : draft.compares rules request P = true) :
    ∃ plain net result result', draft.build = .ok plain ∧
      (draft.withRules rules).build = .ok net ∧ plain.route request = .ok result ∧
      net.route request = .ok result' ∧ P net result result' = true := by
  unfold compares at h
  split at h
  · split at h
    · exact ⟨_, _, _, _, ‹_›, ‹_›, ‹_›, ‹_›, h⟩
    · cases h
  · cases h

/-- With a rule by which the first blue trip waits for the red one, the route arrives no later. -/
theorem route_facilitated_twoLines : ∃ plain net result result' it,
    let draft := twoLines.withRules []
    let request := fromAToD .forward true
    draft.rules = [] ∧ draft.build = .ok plain ∧
    (∀ rule ∈ twoLines.rules, rule.constraint.isFacilitated = true) ∧
    (draft.withRules twoLines.rules).build = .ok net ∧ request.direction = .forward ∧
    (∀ leg ∈ request.access, leg.onBoard = false) ∧ (∀ leg ∈ request.egress, leg.onBoard = false) ∧
    request.slacks.Nonneg ∧ net.SkipsNone request ∧ plain.route request = .ok result ∧
    it ∈ result.itineraries ∧ 1 ≤ request.maxTransfers ∧ it.transferCount ≤ 1 ∧
    (∀ rest, rest <:+ it.legs → Itinerary.spans rest + it.egress.leg.duration < unreached) ∧
    net.route request = .ok result' ∧
    ∃ it' ∈ result'.itineraries, it'.transferCount ≤ 1 ∧ it'.endTime ≤ it.endTime := by
  let draft := twoLines.withRules []
  let request := fromAToD .forward true
  have hcompares : draft.compares twoLines.rules request (fun net result _ =>
      (result.itineraries.any fun it => decide (it.transferCount ≤ 1 ∧
        ∀ rest ∈ it.legs.tails, Itinerary.spans rest + it.egress.leg.duration < unreached)) &&
      net.rules.all fun index => net.timetables.all fun t => (t.trips.toList.drop 1).all fun later =>
        (index.forward.getD later.pattern ⟨#[]⟩).entries.all fun entries =>
          entries.all fun e => !e.appliesTo later) = true := by
    decide +kernel
  obtain ⟨plain, net, result, result', hplain, hbuild, hroute, hroute', hfacts⟩ :=
    Draft.exists_of_compares hcompares
  simp only [Bool.and_eq_true, List.any_eq_true, decide_eq_true_eq, Option.all_eq_true,
    Array.all_eq_true', List.all_eq_true, Bool.not_eq_true'] at hfacts
  obtain ⟨⟨it, hit, hfew, hshort⟩, hfirst⟩ := hfacts
  have hslacks : request.slacks.Nonneg := ⟨by decide, by decide, by decide⟩
  have hfacilitates : ∀ rule ∈ twoLines.rules, rule.constraint.isFacilitated = true := by
    simp [twoLines, Constraint.isFacilitated, Constraint.isGuaranteed]
  have hskips : net.SkipsNone request := Network.skipsNone_of_first hfirst
  have hshort' : ∀ rest, rest <:+ it.legs →
      Itinerary.spans rest + it.egress.leg.duration < unreached :=
    fun rest hrest => hshort rest ((List.mem_tails _ _).mpr hrest)
  exact ⟨plain, net, result, result', it, rfl, hplain, hfacilitates, hbuild, rfl, by decide,
    by decide, hslacks, hskips, hroute, hit, by decide, hfew, hshort', hroute',
    (route_facilitated rfl hplain hfacilitates hbuild rfl (by decide) (by decide) hslacks hskips
      hroute hit (by decide) hfew hshort').of_ok hroute'⟩

/-- Rules that facilitate changes make the route of a request, which departs after a time and walks
to and from its stops, arrive later. -/
structure Draft.Delays (draft : Draft) (rules : List RuleDraft) (request : Request) : Prop where
  unruled : draft.rules = []
  facilitates : ∀ rule ∈ rules, rule.constraint.isFacilitated = true
  direction : request.direction = .forward
  useRules : request.useRules = true
  access : ∀ leg ∈ request.access, leg.onBoard = false
  egress : ∀ leg ∈ request.egress, leg.onBoard = false
  slacks : request.slacks.Nonneg
  delays : ∃ plain net result result' it n, draft.build = .ok plain ∧
    (draft.withRules rules).build = .ok net ∧ plain.route request = .ok result ∧
    net.route request = .ok result' ∧ it ∈ result.itineraries ∧ n ≤ request.maxTransfers ∧
    it.transferCount ≤ n ∧
    ∀ it' ∈ result'.itineraries, it'.transferCount ≤ n → it.endTime < it'.endTime

theorem Draft.exists_of_delayed {draft : Draft} {rules : List RuleDraft} {request : Request}
    {n : Nat} (hn : n ≤ request.maxTransfers)
    (h : draft.compares rules request (fun _ result result' => result.itineraries.any fun it =>
      decide (it.transferCount ≤ n ∧ ∀ it' ∈ result'.itineraries,
        it'.transferCount ≤ n → it.endTime < it'.endTime)) = true) :
    ∃ plain net result result' it n, draft.build = .ok plain ∧
      (draft.withRules rules).build = .ok net ∧ plain.route request = .ok result ∧
      net.route request = .ok result' ∧ it ∈ result.itineraries ∧ n ≤ request.maxTransfers ∧
      it.transferCount ≤ n ∧
      ∀ it' ∈ result'.itineraries, it'.transferCount ≤ n → it.endTime < it'.endTime := by
  obtain ⟨plain, net, result, result', hplain, hbuild, hroute, hroute', hlater⟩ :=
    exists_of_compares h
  obtain ⟨it, hit, hlater⟩ := List.any_eq_true.mp hlater
  obtain ⟨hfew, hlater⟩ := of_decide_eq_true hlater
  exact ⟨plain, net, result, result', it, n, hplain, hbuild, hroute, hroute', hit, hn, hfew, hlater⟩

/-- A red line from A to B with one trip, and a blue line from there to C with two. -/
def twoBlueTrips : Draft :=
  { Draft.new Draft.defaultDate with
    routes := #[⟨"red", 0⟩, ⟨"blue", 0⟩]
    trips := #[
      ⟨"red 1", 0, Draft.defaultCalendar,
        [⟨"A", 36000, 36000, .boardAndAlight⟩, ⟨"B", 36600, 36600, .boardAndAlight⟩]⟩,
      ⟨"blue 1", 1, Draft.defaultCalendar,
        [⟨"B", 37800, 37800, .boardAndAlight⟩, ⟨"C", 38400, 38400, .boardAndAlight⟩]⟩,
      ⟨"blue 2", 1, Draft.defaultCalendar,
        [⟨"B", 38400, 38400, .boardAndAlight⟩, ⟨"C", 39000, 39000, .boardAndAlight⟩]⟩] }

/-- A slow way from A to C, by a trip that takes longer than the time that stands for unreached
stops, a fast one over X and Y, and trips from B to C that have left long ago. -/
def slowAndFast : Draft :=
  { Draft.new Draft.defaultDate with
    routes := #[⟨"old", 0⟩, ⟨"older", 0⟩, ⟨"slow", 0⟩, ⟨"slower", 0⟩, ⟨"fast", 0⟩, ⟨"faster", 0⟩,
      ⟨"fastest", 0⟩]
    trips := #[
      ⟨"old 1", 0, Draft.defaultCalendar,
        [⟨"B", 0, 0, .boardAndAlight⟩, ⟨"D", 1000, 1000, .boardAndAlight⟩]⟩,
      ⟨"older 1", 1, Draft.defaultCalendar,
        [⟨"D", 0, 0, .boardAndAlight⟩, ⟨"C", 1000, 1000, .boardAndAlight⟩]⟩,
      ⟨"slow 1", 2, Draft.defaultCalendar,
        [⟨"A", 1000, 1000, .boardAndAlight⟩, ⟨"B", 1100, 1100, .boardAndAlight⟩]⟩,
      ⟨"slower 1", 3, Draft.defaultCalendar,
        [⟨"B", 2000, 2000, .boardAndAlight⟩, ⟨"C", 1500000000, 1500000000, .boardAndAlight⟩]⟩,
      ⟨"fast 1", 4, Draft.defaultCalendar,
        [⟨"A", 1500, 1500, .boardAndAlight⟩, ⟨"X", 1600, 1600, .boardAndAlight⟩]⟩,
      ⟨"faster 1", 5, Draft.defaultCalendar,
        [⟨"X", 1600, 1600, .boardAndAlight⟩, ⟨"Y", 1700, 1700, .boardAndAlight⟩]⟩,
      ⟨"fastest 1", 6, Draft.defaultCalendar,
        [⟨"Y", 2000, 2000, .boardAndAlight⟩, ⟨"C", 2100, 2100, .boardAndAlight⟩]⟩] }

/-- A rule by which the second blue trip waits for the red one keeps the traveller from the first
one. A rule that opens the fast way makes the search give up the slow one, of which bounds know
nothing, although it needs fewer transfers. -/
theorem route_delayed :
    twoBlueTrips.Delays [⟨.tripStop "red 1" 1, .tripStop "blue 2" 0, .guaranteed⟩] fromAToC ∧
    slowAndFast.Delays [⟨.tripStop "fast 1" 1, .tripStop "faster 1" 0, .guaranteed⟩]
      { fromAToC with
        time := 1000
        window := 500
        step := 500
        access := [⟨3, 0, 0, false⟩]
        costs := { wait := 0, transit := [0.01] } } := by
  constructor
  · refine ⟨rfl, by simp [Constraint.isFacilitated, Constraint.isGuaranteed], rfl, rfl, by decide,
      by decide, ⟨by decide, by decide, by decide⟩, ?_⟩
    exact Draft.exists_of_delayed (show 1 ≤ fromAToC.maxTransfers by decide) (by decide +kernel)
  · refine ⟨rfl, by simp [Constraint.isFacilitated, Constraint.isGuaranteed], rfl, rfl, by decide,
      by decide, ⟨by decide, by decide, by decide⟩, ?_⟩
    exact Draft.exists_of_delayed (show 1 ≤ fromAToC.maxTransfers by decide) (by decide +kernel)

end JourneyPlanner
