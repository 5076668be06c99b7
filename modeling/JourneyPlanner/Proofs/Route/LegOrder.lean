import JourneyPlanner.Proofs.Route.Optimality
import JourneyPlanner.Proofs.Route.Pruning
import JourneyPlanner.Proofs.Search.Confluence

/-!
# Answers in any order of the legs

The bounds of a search that starts with walks are the same in any order of its legs: values at a
stop are the least over all legs there. The searches of a route end in states that are alike, so
their finishes have the same criteria, and with them the itineraries that are answered.

* `BoundState.arrive_comm`: it does not matter which of two legs with a walk is taken first.
* `Network.bounds_reordered`: bounds do not depend on the order of the legs.
* `Network.exists_reaching`: itineraries are answered only if some leg leads to the end.
* `route_reordered`: neither do the criteria of what a route answers.
-/

namespace JourneyPlanner

/-! ### Bounds -/

namespace IndexSet

theorem insert_insert_self (m : IndexSet) (i : Nat) : (m.insert i).insert i = m.insert i := by
  simp only [insert, Array.setIfInBounds_setIfInBounds]

theorem insert_comm (m : IndexSet) (i j : Nat) :
    (m.insert i).insert j = (m.insert j).insert i := by
  by_cases h : i = j
  · rw [h]
  · simp only [insert, Array.setIfInBounds_comm _ _ h]

end IndexSet

namespace StopBound

variable {b : StopBound} {duration duration' : Span} {cost cost' : Cost} {round : Nat}

/-- Of two arrivals by walks the better values are kept, in either order. -/
theorem after_after :
    (b.after duration cost false round).after duration' cost' false round =
      b.after (min duration duration') (min cost cost') false round := by
  simp [StopBound.after, min_assoc]

/-- A walk that makes nothing better changes no more than the rides. -/
theorem after_kept (h : ¬(duration < b.duration ∨ cost < b.cost)) :
    b.after duration cost false round = { b with rides := min b.rides round } := by
  rw [not_or, not_lt, not_lt] at h
  simp [StopBound.after, h]

end StopBound

namespace BoundState

variable {s : BoundState} {stop stop' : StopId} {duration duration' : Span} {cost cost' : Cost}

/-- The values at a stop after a leg with a walk, where these are better. -/
def walkedTo (s : BoundState) (stop : StopId) (duration : Span) (cost : Cost) : Option StopBound :=
  s.stops[stop]?.bind fun b =>
    if duration < b.duration ∨ cost < b.cost then some (b.after duration cost false s.round)
    else none

/-- A state with other values at a stop. -/
def lower (s : BoundState) (stop : StopId) (b : StopBound) : BoundState :=
  { s with stops := s.stops.setIfInBounds stop b, touched := s.touched.insert stop }

/-- An arrival by a walk lowers the values at its stop, or does nothing where none is better. -/
theorem arrive_walk :
    s.arrive stop duration cost false = (s.walkedTo stop duration cost).elim s (s.lower stop) := by
  unfold arrive walkedTo
  cases s.stops[stop]? with
  | none => rfl
  | some b =>
    simp only [Bool.or_eq_true, decide_eq_true_eq, Bool.false_and, Bool.false_eq_true, or_false,
      if_false, Option.bind_some]
    split <;> rfl

theorem lower_lower_self {b b' : StopBound} : (s.lower stop b).lower stop b' = s.lower stop b' := by
  simp only [lower, Array.setIfInBounds_setIfInBounds, IndexSet.insert_insert_self]

theorem lower_comm {b b' : StopBound} (h : stop ≠ stop') :
    (s.lower stop b).lower stop' b' = (s.lower stop' b').lower stop b := by
  simp only [lower, Array.setIfInBounds_comm _ _ h, IndexSet.insert_comm _ stop stop']

/-- Values that get lower at one stop are of no effect on another. -/
theorem walkedTo_lower_of_ne {b : StopBound} (h : stop ≠ stop') :
    (s.lower stop b).walkedTo stop' duration cost = s.walkedTo stop' duration cost := by
  simp only [walkedTo, lower, Array.getElem?_setIfInBounds_ne h]

/-- Two walks to one stop leave values there that do not depend on which of them comes first. -/
theorem arrive_arrive_self {b : StopBound} (hb : s.stops[stop]? = some b) :
    (s.arrive stop duration cost false).arrive stop duration' cost' false =
      if min duration duration' < b.duration ∨ min cost cost' < b.cost then
        s.lower stop (b.after (min duration duration') (min cost cost') false s.round)
      else s := by
  have hlowered : ∀ b', (s.lower stop b').stops[stop]? = some b' := fun b' => by
    rw [lower, getElem?_setIfInBounds_of_some hb, if_pos rfl]
  have hiff : min duration duration' < b.duration ∨ min cost cost' < b.cost ↔
      (duration < b.duration ∨ cost < b.cost) ∨ (duration' < b.duration ∨ cost' < b.cost) := by
    rw [min_lt_iff, min_lt_iff, or_or_or_comm]
  rw [arrive_walk (s := s), walkedTo, hb, Option.bind_some, ← StopBound.after_after]
  by_cases hbetter : duration < b.duration ∨ cost < b.cost
  · rw [if_pos hbetter, if_pos (hiff.mpr (.inl hbetter)), Option.elim_some, arrive_walk, walkedTo,
      hlowered, Option.bind_some]
    split
    case isTrue => exact lower_lower_self
    case isFalse hnot =>
      rw [StopBound.after_kept hnot, Option.elim_none]
      simp [StopBound.after]
  · rw [if_neg hbetter, Option.elim_none, arrive_walk, walkedTo, hb, Option.bind_some,
      StopBound.after_kept hbetter]
    simp only [hiff, hbetter, false_or]
    split
    case isTrue => simp [StopBound.after]
    case isFalse => rfl

/-- It does not matter which of two legs with a walk is taken first. -/
theorem arrive_comm :
    (s.arrive stop duration cost false).arrive stop' duration' cost' false =
      (s.arrive stop' duration' cost' false).arrive stop duration cost false := by
  by_cases h : stop = stop'
  · subst h
    cases hb : s.stops[stop]? with
    | none => simp [arrive_walk, walkedTo, hb]
    | some b => rw [arrive_arrive_self hb, arrive_arrive_self hb, min_comm duration, min_comm cost]
  · rw [arrive_walk (s := s), arrive_walk (s := s)]
    cases hb : s.walkedTo stop duration cost with
    | none =>
      cases hb' : s.walkedTo stop' duration' cost' with
      | none => simp [arrive_walk, hb, hb']
      | some b' => simp [arrive_walk, walkedTo_lower_of_ne (Ne.symm h), hb, hb']
    | some b =>
      cases hb' : s.walkedTo stop' duration' cost' with
      | none => simp [arrive_walk, walkedTo_lower_of_ne h, hb, hb']
      | some b' =>
        simp [arrive_walk, walkedTo_lower_of_ne h, walkedTo_lower_of_ne (Ne.symm h), hb, hb',
          lower_comm h]

end BoundState

section

variable {σ κ ι : Type} {scheme : Scheme σ κ ι} {course : Course} {access : List Connector}

/-- Rounds look at no legs but those that start on board. -/
theorem roundsFrom_reordered {time : Time} {remaining round : Nat} {progress : Progress σ}
    (hcourse : course.onBoardAccess = [])
    (haccess : ({ course with access } : Course).onBoardAccess = []) :
    roundsFrom scheme { course with access } time remaining round progress =
      roundsFrom scheme course time remaining round progress := by
  induction remaining generalizing round progress with
  | zero => rfl
  | succ remaining ih =>
    simp only [roundsFrom, hcourse, haccess, ih]
    rfl

end

variable {net : Network} {request : Request} {access egress : List Connector} {tariff : Tariff}
  {times : List Time}

theorem Request.searchAccess_perm (haccess : request.access.Perm access)
    (hegress : request.egress.Perm egress) :
    request.searchAccess.Perm ({ request with access, egress } : Request).searchAccess := by
  unfold searchAccess
  cases request.direction with
  | forward => exact haccess
  | reverse => exact hegress

theorem Request.searchEgress_perm (haccess : request.access.Perm access)
    (hegress : request.egress.Perm egress) :
    request.searchEgress.Perm ({ request with access, egress } : Request).searchEgress := by
  unfold searchEgress
  cases request.direction with
  | forward => exact hegress
  | reverse => exact haccess

theorem Course.onBoardAccess_eq_nil {course : Course}
    (h : ∀ leg ∈ course.access, leg.onBoard = false) : course.onBoardAccess = [] := by
  rw [onBoardAccess, List.filter_eq_nil_iff]
  intro leg hleg
  rw [h leg hleg]
  decide

/-- The legs of a search for bounds that start with a walk may be taken in any order. -/
theorem boundSeeds_perm {c : BoundScene} {legs legs' : List Connector} {time : Time}
    {s : BoundState} (h : legs.Perm legs') :
    legs.foldlM (fun s leg => (boundScheme c).seed leg time s) s =
      legs'.foldlM (fun s leg => (boundScheme c).seed leg time s) s := by
  have hpure : ∀ legs : List Connector,
      legs.foldlM (fun s leg => (boundScheme c).seed leg time s) s =
        pure (legs.foldl (fun s leg => s.arrive leg.stop leg.duration leg.cost false) s) :=
    fun legs => List.foldlM_pure
  rw [hpure, hpure, h.foldl_eq' fun _ _ _ _ _ => BoundState.arrive_comm]

/-- A search for bounds that starts with walks finds the same in any order of its legs. -/
theorem boundRun_reordered {course : Course} {c : BoundScene} {progress : Progress BoundState}
    (hperm : course.access.Perm access) (hwalks : ∀ leg ∈ course.access, leg.onBoard = false) :
    run (boundScheme c) { course with access } .unlimited progress times =
      run (boundScheme c) course .unlimited progress times := by
  have hwalks' : ∀ leg ∈ access, leg.onBoard = false := fun leg hleg =>
    hwalks leg (hperm.mem_iff.mpr hleg)
  have hwalking : ({ course with access } : Course).walkingAccess.Perm course.walkingAccess :=
    hperm.symm.filter _
  have hiterate : ∀ progress time, iterate (boundScheme c) { course with access } progress time =
      iterate (boundScheme c) course progress time := by
    rintro ⟨state, marks, rounds⟩ time
    simp only [iterate, boundSeeds_perm hwalking,
      roundsFrom_reordered (Course.onBoardAccess_eq_nil hwalks)
        (Course.onBoardAccess_eq_nil hwalks')]
  simp only [run, hiterate]

/-- The bounds do not depend on the order of the legs. -/
theorem Network.bounds_reordered (haccess : request.access.Perm access)
    (hegress : request.egress.Perm egress)
    (hwalks : ∀ leg ∈ request.searchEgress, leg.onBoard = false) :
    net.bounds { request with access, egress } tariff = net.bounds request tariff := by
  let c : BoundScene := ⟨request.direction.opposite, tariff, request.rules net⟩
  let course : Course :=
    ⟨net, request.direction.opposite, request.maxRounds, request.searchEgress⟩
  have hrun : run (boundScheme c) { course with
        access := ({ request with access, egress } : Request).searchEgress } .unlimited
      (.new course (.new net.stopCount)) [0] =
      run (boundScheme c) course .unlimited (.new course (.new net.stopCount)) [0] :=
    boundRun_reordered (Request.searchEgress_perm haccess hegress) hwalks
  unfold Network.bounds
  exact congrArg (fun found : Checked (Progress BoundState) => do
    let progress ← found
    return progress.state.bounds) hrun

/-- A summary says that the end is reachable only if some leg leads there. -/
theorem Bounds.exists_of_summary {bounds : Bounds} {legs : List Connector} {summary : BoundSummary}
    (h : bounds.summary legs = .ok summary) (hreachable : summary.reachable = true) :
    ∃ leg ∈ legs, bounds.at? leg.stop ≠ none := by
  by_contra hnone
  simp only [ne_eq, not_exists, not_and, not_not] at hnone
  have hskip : ∀ (legs : List Connector) (summary : BoundSummary),
      (∀ leg ∈ legs, bounds.at? leg.stop = none) →
      legs.foldlM bounds.addLeg summary = .ok summary := by
    intro legs summary hlegs
    induction legs with
    | nil => rfl
    | cons leg legs ih =>
      rw [List.forall_mem_cons] at hlegs
      rw [List.foldlM_cons, addLeg, hlegs.1]
      exact ih hlegs.2
  rw [Bounds.summary, hskip legs _ hnone] at h
  cases h
  cases hreachable

/-! ### Answers -/

namespace Network

variable {bounds : Option Bounds} {chunks : List (List Time)} {states states' : List Labels}
  {itineraries itineraries' : List Itinerary} {result : RouteResult} {it : Itinerary}

/-- The searches of a request and those with its legs in another order end with finishes that have
the same criteria. -/
theorem Answers.covers_reordered (h : net.Answers request tariff bounds chunks states itineraries)
    (h' : net.Answers { request with access, egress } tariff bounds chunks states' itineraries')
    (haccess : request.access.Perm access) (hegress : request.egress.Perm egress)
    (hrules : request.rules net = none) (hcosts : tariff.RidesCost) (hit : it ∈ itineraries) :
    ∃ it' ∈ itineraries', request.direction.dominatesJourney (it'.criteria request.direction)
      (it.criteria request.direction) = true := by
  have hstates : ∀ s ∈ states, ∃ s' ∈ states', ∀ e ∈ s.finishes.entries,
      ∃ e' ∈ s'.finishes.entries, e'.2 = e.2 := by
    have hall := h.searched
    have hall' := h'.searched
    clear h h'
    induction hall generalizing states' with
    | nil => simp
    | @cons chunk s chunks states hfirst _ ih =>
      cases hall' with
      | @cons _ s' _ states' hfirst' hrest' =>
        have hreordered : (net.labelScene request tariff bounds).Iterations
            (net.labelCourse request) (net.labelProgress request).state chunk s' :=
          LabelScene.Iterations.reordered hfirst'
            (fun leg => (Request.searchEgress_perm haccess hegress).symm.mem_iff)
            (fun leg => (Request.searchAccess_perm haccess hegress).symm.mem_iff)
        have halike := hfirst.alike hreordered (.refl Labels.new_sound) hrules hcosts
        refine List.forall_mem_cons.mpr ⟨⟨s', List.mem_cons_self, fun e he => ?_⟩, fun t ht => ?_⟩
        · exact halike.exists_finish (hfirst.clean Front.clean_empty) he
        · obtain ⟨t', ht', hfinishes⟩ := ih hrest' t ht
          exact ⟨t', List.mem_cons_of_mem _ ht', hfinishes⟩
  obtain ⟨s, hs, e, he, hcriteria⟩ := h.finished it hit
  obtain ⟨s', hs', hfinishes⟩ := hstates s hs
  obtain ⟨e', he', hsame⟩ := hfinishes e he
  rw [hcriteria, ← hsame]
  exact h'.covered s' hs' e' he'

/-- Itineraries are answered only if some leg leads to the end. -/
theorem exists_reaching (h : net.route request = .ok result) (hit : it ∈ result.itineraries) :
    ∃ tariff bounds, Tariff.ofOptions request.costs = .ok tariff ∧
      net.bounds request tariff = .ok bounds ∧
      ∃ leg ∈ request.searchAccess, bounds.at? leg.stop ≠ none := by
  rw [route, routeWithin] at h
  obtain ⟨tariff, htariff, h⟩ := bind_eq_ok.mp h
  obtain ⟨_, -, h⟩ := bind_eq_ok.mp h
  obtain ⟨bounds, hbounds, h⟩ := bind_eq_ok.mp h
  obtain ⟨summary, hsummary, h⟩ := bind_eq_ok.mp h
  obtain ⟨times, -, h⟩ := bind_eq_ok.mp h
  cases hreachable : summary.reachable with
  | false =>
    simp only [hreachable] at h
    cases h
    cases hit
  | true => exact ⟨tariff, bounds, htariff, hbounds, Bounds.exists_of_summary hsummary hreachable⟩

/-- With its legs in another order a request has answers that are as good. -/
theorem yields_covers_reordered (hnet : net.Sound) (hrules : request.rules net = none)
    (hslacks : request.slacks.Nonneg) (hcosts : request.costs.Nonneg)
    (hwalksAccess : ∀ leg ∈ request.access, leg.onBoard = false)
    (hwalksEgress : ∀ leg ∈ request.egress, leg.onBoard = false)
    (haccess : request.access.Perm access) (hegress : request.egress.Perm egress) :
    Yields (net.route request) fun result =>
      Yields (net.route { request with access, egress }) fun result' =>
        ∀ it ∈ result.itineraries, ∃ it' ∈ result'.itineraries,
          request.direction.dominatesJourney (it'.criteria request.direction)
            (it.criteria request.direction) = true := by
  obtain ⟨hwalksAccess₁, hwalksEgress₁⟩ := Request.walks_of_walks hwalksAccess hwalksEgress
  have haccess₁ := Request.searchAccess_perm haccess hegress
  have hegress₁ := Request.searchEgress_perm haccess hegress
  have hrules₁ : ({ request with access, egress } : Request).rules net = none := hrules
  refine (yields_route hnet (.inr hrules) hslacks hwalksAccess₁ hwalksEgress₁).mono ?_
  rintro result hroute ⟨tariff, bounds, times, htariff, hbounds, htimes, hanswers⟩
  refine (yields_route hnet (.inr hrules₁) hslacks
    (fun leg hleg => hwalksAccess₁ leg (haccess₁.mem_iff.mpr hleg))
    (fun leg hleg => hwalksEgress₁ leg (hegress₁.mem_iff.mpr hleg))).mono ?_
  rintro result' - ⟨tariff', bounds', times', htariff', hbounds', htimes', hanswers'⟩ it hit
  rw [bounds_reordered haccess hegress hwalksEgress₁] at hbounds'
  obtain rfl := Except.ok.inj (htariff.symm.trans htariff')
  obtain rfl := Except.ok.inj (hbounds.symm.trans hbounds')
  obtain rfl := Except.ok.inj (htimes.symm.trans htimes')
  obtain ⟨tariff₁, bounds₁, htariff₁, hbounds₁, leg, hleg, hreaches⟩ := exists_reaching hroute hit
  obtain rfl := Except.ok.inj (htariff.symm.trans htariff₁)
  obtain rfl := Except.ok.inj (hbounds.symm.trans hbounds₁)
  rcases hanswers with ⟨hnone, -⟩ | ⟨states, hanswers⟩
  · exact absurd (hnone leg hleg) hreaches
  rcases hanswers' with ⟨hnone, -⟩ | ⟨states', hanswers'⟩
  · exact absurd (hnone leg (haccess₁.mem_iff.mp hleg)) hreaches
  exact hanswers.covers_reordered hanswers' haccess hegress hrules
    (Tariff.nonneg_of_ofOptions htariff hcosts).rides hit

/-- Routes that answer as good as each other answer the same criteria. -/
theorem exists_criteria_of_covers {result' : RouteResult} {k : JourneyCriteria}
    (h : net.route request = .ok result)
    (hcovers : ∀ it ∈ result.itineraries, ∃ it' ∈ result'.itineraries,
      request.direction.dominatesJourney (it'.criteria request.direction)
        (it.criteria request.direction) = true)
    (hback : ∀ it ∈ result'.itineraries, ∃ it' ∈ result.itineraries,
      request.direction.dominatesJourney (it'.criteria request.direction)
        (it.criteria request.direction) = true) :
    (∃ it ∈ result.itineraries, it.criteria request.direction = k) →
      ∃ it ∈ result'.itineraries, it.criteria request.direction = k := by
  have hdom := request.direction.dominatesJourney_isOrder
  rintro ⟨it, hit, rfl⟩
  obtain ⟨it', hit', hbetter⟩ := hcovers it hit
  obtain ⟨it'', hit'', hbetter'⟩ := hback it' hit'
  have hsame := criteria_eq_of_mem_route h hit'' hit (hdom.trans hbetter' hbetter)
  rw [hsame] at hbetter'
  exact ⟨it', hit', hdom.antisymm hbetter hbetter'⟩

end Network

/-- In both directions, without rules, the criteria of the itineraries that a route answers do not
depend on the order of the legs of the request. -/
theorem route_reordered {draft : Draft} {net : Network} {request : Request}
    {access egress : List Connector} (hbuild : draft.build = .ok net)
    (hrules : request.rules net = none) (hslacks : request.slacks.Nonneg)
    (hcosts : request.costs.Nonneg) (hwalksAccess : ∀ leg ∈ request.access, leg.onBoard = false)
    (hwalksEgress : ∀ leg ∈ request.egress, leg.onBoard = false)
    (haccess : request.access.Perm access) (hegress : request.egress.Perm egress) :
    Yields (net.route request) fun result =>
      Yields (net.route { request with access, egress }) fun result' =>
        ∀ k, (∃ it ∈ result.itineraries, it.criteria request.direction = k) ↔
          ∃ it ∈ result'.itineraries, it.criteria request.direction = k := by
  have hnet := Draft.build_sound hbuild
  refine (Network.yields_covers_reordered hnet hrules hslacks hcosts hwalksAccess hwalksEgress
    haccess hegress).mono fun result hroute hcovers => ?_
  refine hcovers.mono fun result' hroute' hcovers => ?_
  have hback : Yields (net.route request) fun result =>
      ∀ it ∈ result'.itineraries, ∃ it' ∈ result.itineraries,
        request.direction.dominatesJourney (it'.criteria request.direction)
          (it.criteria request.direction) = true :=
    (@Network.yields_covers_reordered net { request with access, egress } request.access
      request.egress hnet hrules hslacks hcosts
      (fun leg hleg => hwalksAccess leg (haccess.mem_iff.mpr hleg))
      (fun leg hleg => hwalksEgress leg (hegress.mem_iff.mpr hleg)) haccess.symm
      hegress.symm).of_ok hroute'
  exact fun k => ⟨Network.exists_criteria_of_covers hroute hcovers (hback.of_ok hroute),
    @Network.exists_criteria_of_covers net { request with access, egress } result' result k hroute'
      (hback.of_ok hroute) hcovers⟩

/-- The way from A or B to D, without rules, and the same with its legs in another order. -/
theorem route_reordered_twoLines : ∃ net result result' it,
    let access : List Connector := [⟨0, 100, 200, false⟩, ⟨1, 900, 1800, false⟩]
    let egress : List Connector := [⟨3, 200, 400, false⟩, ⟨3, 100, 900, false⟩]
    let request := { fromAToD .forward false with access, egress }
    twoLines.build = .ok net ∧ request.rules net = none ∧ request.slacks.Nonneg ∧
    request.costs.Nonneg ∧ (∀ leg ∈ request.access, leg.onBoard = false) ∧
    (∀ leg ∈ request.egress, leg.onBoard = false) ∧
    request.access.Perm access.reverse ∧ request.egress.Perm egress.reverse ∧
    net.route request = .ok result ∧
    net.route { request with access := access.reverse, egress := egress.reverse } = .ok result' ∧
    it ∈ result.itineraries ∧
      ∃ it' ∈ result'.itineraries, it'.criteria .forward = it.criteria .forward := by
  let access : List Connector := [⟨0, 100, 200, false⟩, ⟨1, 900, 1800, false⟩]
  let egress : List Connector := [⟨3, 200, 400, false⟩, ⟨3, 100, 900, false⟩]
  let request := { fromAToD .forward false with access, egress }
  let request' := { request with access := access.reverse, egress := egress.reverse }
  have hfinds : twoLines.finds request (fun net _ => (net.route request').toOption.isSome) =
      true := by
    decide +kernel
  obtain ⟨net, result, it, hbuild, hroute, hit, hother⟩ := Draft.exists_of_finds hfinds
  have hslacks : request.slacks.Nonneg := ⟨by decide, by decide, by decide⟩
  have hcosts : request.costs.Nonneg := ⟨by decide, by decide +kernel, by simp [request, fromAToD],
    by simp [request, fromAToD]⟩
  have haccess : request.access.Perm access.reverse := access.reverse_perm.symm
  have hegress : request.egress.Perm egress.reverse := egress.reverse_perm.symm
  cases hroute' : net.route request' with
  | error fault =>
    rw [hroute'] at hother
    cases hother
  | ok result' =>
    have hsame := ((route_reordered hbuild rfl hslacks hcosts (by decide) (by decide) haccess
      hegress).of_ok hroute).of_ok hroute' (it.criteria .forward)
    exact ⟨net, result, result', it, hbuild, rfl, hslacks, hcosts, by decide, by decide, haccess,
      hegress, hroute, hroute', hit, hsame.mp ⟨it, hit, rfl⟩⟩

end JourneyPlanner
