import JourneyPlanner.Proofs.Refinement.Feasibility
import JourneyPlanner.Proofs.Route.Soundness
import JourneyPlanner.Proofs.Transfer.Rulings
import JourneyPlanner.Proofs.Transfer.Scan

/-!
# Changes under transfer rules

What the rules of a network say about the changes of a route. A change that the rules settle is
feasible under them. One that they leave open is made regularly: it is feasible under the rule about
it unless the rule forbids it or asks for more time than there is.

* `Slacks.changeBetween`: the change between two rides as a search makes it.
* `Network.LeavesOpen`: the rules leave a change to the regular search, because they admit none of
  the trips that are looked at (`Network.AdmitsNone`).
* `Network.Settled`, `Network.Regular`: the rules settle a change, or it is made regularly.
* `route_change_rule`: the changes of a route.
-/

namespace JourneyPlanner

/-! ### Changes as a search makes them -/

def walkedTime : List Leg → Span
  | [] => 0
  | .walk stroll :: rest => stroll.duration + walkedTime rest
  | .ride _ :: rest => walkedTime rest

theorem walkedTime_congr {legs others : List Leg}
    (h : others.map Leg.untimed = legs.map Leg.untimed) : walkedTime others = walkedTime legs := by
  induction legs generalizing others with
  | nil => rw [List.map_eq_nil_iff.mp h]
  | cons leg rest ih =>
    cases others with
    | nil => cases h
    | cons other others =>
      obtain ⟨hleg, hrest⟩ := List.cons.inj h
      have := ih hrest
      cases leg with
      | ride r =>
        cases other with
        | ride r' => exact this
        | walk stroll => cases hleg
      | walk stroll =>
        cases other with
        | ride r => cases hleg
        | walk stroll' =>
          obtain ⟨-, -, hduration⟩ : stroll'.source = stroll.source ∧
              stroll'.target = stroll.target ∧ stroll'.duration = stroll.duration := by
            simpa [Leg.untimed, Stroll.untimed] using hleg
          rw [walkedTime, walkedTime, hduration, this]

/-- The change between two rides as a search makes it. -/
def Slacks.changeBetween (slacks : Slacks) (d : Direction) (first : Ride) (walk : Span)
    (second : Ride) : Change :=
  match d with
  | .forward =>
    { source := first.trip
      sourceStop := first.alightStop
      sourcePosition := first.alightPosition
      arrival := first.arrives
      walk
      earliest := first.arrives + slacks.alight + walk + slacks.transfer + slacks.board
      position := second.boardPosition }
  | .reverse =>
    { source := second.trip
      sourceStop := second.boardStop
      sourcePosition := second.boardPosition
      arrival := second.departs
      walk
      earliest := second.departs - slacks.board - walk - slacks.transfer - slacks.alight
      position := first.alightPosition }

/-- The ride that a search chooses in a change. -/
def Direction.chosenRide (d : Direction) (first second : Ride) : Ride :=
  match d with
  | .forward => second
  | .reverse => first

/-- The rides `prior` and `last`, which a search makes one after the other, are `first` and `second`
for the traveller. Going back in time the order changes, and the constraint of the boarding moves to
the later ride. -/
def Direction.InOrder (d : Direction) (prior last first second : Ride) : Prop :=
  match d with
  | .forward => first = prior ∧ second = last
  | .reverse => (∃ constraint, first = { last with constraint }) ∧
    second = { prior with constraint := last.constraint }

namespace Network

variable (net : Network) (request : Request) (first : Ride) (walk : Span) (second : Ride)

/-- The scan of the trips that a search may choose in a change, under the rules. -/
def Scans (found : Option Boarding) : Prop :=
  ∃ index search t, request.rules net = some index ∧
    index.boardingSearch request.direction
      (request.direction.chosenRide first second).trip.pattern request.definitive = .ok search ∧
    net.timetable (request.direction.chosenRide first second).trip.pattern = .ok t ∧
    search.find t (request.slacks.changeBetween request.direction first walk second)
      (fun trip => (net.servicesOn request.date).contains trip.service) = .ok found

/-- The rules leave a change to the regular search. -/
def LeavesOpen : Prop := net.Scans request first walk second none

/-- The rules admit none of the trips that a search may choose in a change, of those that the scan
looks at before it gives up. -/
def AdmitsNone : Prop :=
  ∃ index search t, request.rules net = some index ∧
    index.boardingSearch request.direction
      (request.direction.chosenRide first second).trip.pattern request.definitive = .ok search ∧
    net.timetable (request.direction.chosenRide first second).trip.pattern = .ok t ∧
    search.AdmitsNone (request.slacks.changeBetween request.direction first walk second)
      (fun trip => (net.servicesOn request.date).contains trip.service) []
      (t.ranked search.direction)

/-- The rules settle a change: the trip that they allow to board is chosen. -/
def Settled : Prop :=
  ∃ found, net.Scans request first walk second (some found) ∧
    found.trip = (request.direction.chosenRide first second).trip ∧
    found.constraint = second.constraint ∧ found.constraint ≠ .notAllowed

/-- The change is made regularly, with all slacks. -/
def Regular : Prop :=
  second.constraint = .regular ∧
    (ConnectionScene.ofRequest net request).Feasible first.leaving second.boarding walk .regular

end Network

/-! ### What the rules settle -/

namespace Network

variable {net : Network} {request : Request} {first second : Ride} {walk : Span}
  {found : Boarding}

theorem boardingSearch_eq_ok {index : RuleIndex} {d : Direction} {pattern : PatternId}
    {definitive : Bool} {search : RuleSearch}
    (h : index.boardingSearch d pattern definitive = .ok search) :
    search = ⟨d, (match d with
      | .forward => index.forward
      | .reverse => index.reverse).getD pattern ⟨#[]⟩, index.stations, definitive⟩ := by
  obtain ⟨rules, hrules, h⟩ := bind_eq_ok.mp h
  cases h
  cases d with
  | forward | reverse =>
    simp only [Array.getD_eq_getD_getElem?, fetch_eq_ok.mp hrules, Option.getD_some]

/-- A change is left open only if the rules admit none of the trips that are looked at. -/
theorem LeavesOpen.admitsNone (h : net.LeavesOpen request first walk second) :
    net.AdmitsNone request first walk second := by
  obtain ⟨index, search, t, hindex, hsearch, ht, hfind⟩ := h
  exact ⟨index, search, t, hindex, hsearch, ht, (RuleSearch.find_eq_none_iff hfind).mp rfl⟩

/-- A boarding that the scan finds is settled by the rules. -/
theorem Scans.settles (h : net.Scans request first walk second (some found)) (hnet : net.Sound)
    {p : Pattern}
    (hp : net.patterns[(request.direction.chosenRide first second).trip.pattern]? = some p)
    (hposition : (request.slacks.changeBetween request.direction first walk second).position <
      p.length) :
    ∃ index t, request.rules net = some index ∧
      RuleSearch.Settles ⟨request.direction, (match request.direction with
        | .forward => index.forward
        | .reverse => index.reverse).getD
          (request.direction.chosenRide first second).trip.pattern ⟨#[]⟩,
        index.stations, request.definitive⟩ t
        (request.slacks.changeBetween request.direction first walk second)
        (fun trip => (net.servicesOn request.date).contains trip.service) found := by
  obtain ⟨index, search, t, hindex, hsearch, ht, hfind⟩ := h
  obtain rfl := boardingSearch_eq_ok hsearch
  have ht := hnet.timetable_sound hp (fetch_eq_ok.mp ht)
  exact ⟨index, t, hindex, (RuleSearch.yields_find ht hposition).of_ok hfind found rfl⟩

/-- A ride that a search chooses in time is boarded in time. -/
theorem feasible_regular (h : match request.direction with
    | .forward => Direction.forward.NoLater
      (request.slacks.changeBetween .forward first walk second).earliest second.departs
    | .reverse => Direction.reverse.NoLater
      (request.slacks.changeBetween .reverse first walk second).earliest first.arrives) :
    (ConnectionScene.ofRequest net request).Feasible first.leaving second.boarding walk
    .regular := by
  show first.arrives + _ + _ + _ + _ ≤ second.departs
  simp only [ConnectionScene.ofRequest]
  cases hd : request.direction with
  | forward =>
    rw [hd] at h
    exact Direction.noLater_forward.mp h
  | reverse =>
    rw [hd] at h
    have h := Direction.noLater_reverse.mp h
    simp only [Slacks.changeBetween] at h
    linarith

/-- A change that the rules settle is feasible under its constraint. -/
theorem Settled.feasible (h : net.Settled request first walk second) (hnet : net.Sound)
    (hfirst : net.Offers request.date first) (hsecond : net.Offers request.date second) :
    (ConnectionScene.ofRequest net request).Feasible first.leaving second.boarding walk
      second.constraint := by
  obtain ⟨found, hscans, htrip, hconstraint, hallowed⟩ := h
  obtain ⟨p, _, hp, -, -, -, -, -, -, -, halight⟩ := hfirst
  obtain ⟨p', _, hp', -, -, -, -, -, -, hboard, -⟩ := hsecond
  have halight := (Array.getElem?_eq_some_iff.mp halight).1
  have hboard := (Array.getElem?_eq_some_iff.mp hboard).1
  rw [← hconstraint]
  cases hd : request.direction with
  | forward =>
    obtain ⟨index, t, -, hsettles⟩ := hscans.settles hnet (p := p') (by rwa [hd]) (by rwa [hd])
    rw [hd] at htrip hsettles
    have htime : found.time = second.departs := by
      rw [hsettles.time, htrip]
      rfl
    have htimely := hsettles.timely
    rw [htime] at htimely
    generalize found.constraint = constraint at htimely hallowed
    cases constraint with
    | regular => exact Direction.noLater_forward.mp htimely
    | guaranteed | staySeated => exact Direction.noLater_forward.mp htimely
    | minTime least =>
      exact ⟨Direction.noLater_forward.mp htimely.1,
        fun hdefinitive => Direction.noLater_forward.mp (htimely.2 hdefinitive)⟩
    | notAllowed => exact hallowed rfl
  | reverse =>
    obtain ⟨index, t, -, hsettles⟩ := hscans.settles hnet (p := p) (by rwa [hd]) (by rwa [hd])
    rw [hd] at htrip hsettles
    have htime : found.time = first.arrives := by
      rw [hsettles.time, htrip]
      rfl
    have htimely := hsettles.timely
    rw [htime] at htimely
    -- the bounds of the search are those of the traveller, counted from the other side
    have hbound : ∀ {span : Span}, Direction.reverse.NoLater
        (Direction.reverse.shift second.departs span) first.arrives →
        first.arrives + span ≤ second.departs := by
      intro span h
      have h := Direction.noLater_reverse.mp h
      simp only [Direction.shift] at h
      linarith
    have hregular : Direction.reverse.NoLater (request.slacks.changeBetween .reverse first walk
        second).earliest first.arrives → (ConnectionScene.ofRequest net request).Feasible
          first.leaving second.boarding walk .regular := fun h =>
      feasible_regular (by rwa [hd])
    generalize found.constraint = constraint at htimely hallowed
    cases constraint with
    | regular => exact hregular htimely
    | guaranteed | staySeated => exact hbound htimely
    | minTime least =>
      exact ⟨hbound htimely.1, fun hdefinitive => hregular (htimely.2 hdefinitive)⟩
    | notAllowed => exact hallowed rfl

/-- A change that the rules settle has the constraint of the rule about it, unless the search goes
back in time and a rule has a mixed side. -/
theorem Settled.constraint_eq (h : net.Settled request first walk second) (hnet : net.Sound)
    (hfirst : net.Offers request.date first) (hsecond : net.Offers request.date second)
    (hplain : request.direction = .reverse → ∀ index, net.rules = some index →
      ∀ rule ∈ index.rules, ¬rule.source.IsMixed ∧ ¬rule.target.IsMixed) :
    second.constraint =
      (ConnectionScene.ofRequest net request).constraintBetween first.leaving second.boarding := by
  obtain ⟨found, hscans, htrip, hconstraint, hallowed⟩ := h
  obtain ⟨p, t, hp, ht, hmem, -, -, -, halights, -, halight⟩ := hfirst
  obtain ⟨p', t', hp', ht', hmem', -, -, hboards, -, hboard, -⟩ := hsecond
  have halight_lt := (Array.getElem?_eq_some_iff.mp halight).1
  have hboard_lt := (Array.getElem?_eq_some_iff.mp hboard).1
  rw [← hconstraint]
  cases hd : request.direction with
  | forward =>
    obtain ⟨index, _, hindex, hsettles⟩ := hscans.settles hnet (p := p') (by rwa [hd])
      (by rwa [hd])
    rw [hd] at htrip hsettles
    rw [hsettles.constraint, htrip, ConnectionScene.constraintBetween,
      show (ConnectionScene.ofRequest net request).rules = some index from hindex]
    exact RuleSearch.ruling_forward
  | reverse =>
    obtain ⟨index, _, hindex, hsettles⟩ := hscans.settles hnet (p := p) (by rwa [hd]) (by rwa [hd])
    rw [hd] at htrip hsettles
    have hindex' : net.rules = some index := rules_of_request hindex
    obtain ⟨rules, rfl⟩ := hnet.rules_eq hindex'
    obtain ⟨rank, hrank⟩ := Array.getElem?_of_mem hmem
    obtain ⟨rank', hrank'⟩ := Array.getElem?_of_mem hmem'
    rw [hsettles.constraint, htrip, ConnectionScene.constraintBetween,
      show (ConnectionScene.ofRequest net request).rules = some _ from hindex]
    exact RuleSearch.ruling_reverse ⟨hp, ht, hmem, hnet.trip_route hp ht hrank, halight⟩
      ⟨hp', ht', hmem', hnet.trip_route hp' ht' hrank', hboard⟩ rfl halights hboards
      (hplain hd _ hindex')

end Network

namespace LabelScene

variable {c : LabelScene} {course : Course} {request : Request} {s : Labels} {id : LabelId}
  {prior last : Ride} {between : List Leg} {p : Pattern} {t : Timetable}
  {ended before after : Label} {ride' ride : SearchRide} {walk : Span} {e : Boarded}
  {k : AboardCriteria} {first second : Ride}

/-- The change that the search asks its rules about. -/
theorem Turns.changeAt_eq
    (h : c.Turns course s prior between last p t id ended before after ride' ride walk e k)
    (hj : c.Justified course s) (hnet : course.network.Sound) :
    c.changeAt before ride' ended.stop ride.boardPosition = match c.direction with
      | .forward => c.slacks.changeBetween .forward prior walk last
      | .reverse => c.slacks.changeBetween .reverse last walk prior := by
  have hearliest := h.follows.earliest_eq hnet hj h.before_mem
  have halight := h.alightTime
  have hwalk : (c.changeAt before ride' ended.stop ride.boardPosition).walk = walk :=
    h.follows.changeAt_walk
  have hchange : c.changeAt before ride' ended.stop ride.boardPosition =
      { source := ride'.trip
        sourceStop := ended.stop
        sourcePosition := ride'.alightPosition
        arrival := ride'.alightTime
        walk
        earliest := c.earliest before
        position := ride.boardPosition } := by
    rw [← hwalk]
    rfl
  rw [hchange, hearliest, halight, h.prior_eq, h.last_eq]
  unfold realRide
  cases c.direction with
  | forward =>
    simp only [Slacks.changeBetween, Direction.shift, Slacks.afterAlighting, Slacks.beforeBoarding]
    congr 1
    show _ = Direction.forward.alightingAt ride'.trip ride'.alightPosition + _ + _ + _ + _
    linarith
  | reverse =>
    simp only [Slacks.changeBetween, Direction.shift, Slacks.afterAlighting, Slacks.beforeBoarding]
    congr 1
    show _ = Direction.reverse.alightingAt ride'.trip ride'.alightPosition - _ - _ - _ - _
    linarith

/-- Where the rules do not settle a change after a ride, their scan finds nothing. -/
theorem ruled_eq_none {search : RuleSearch} {label : Label} {stop : StopId} {position : Nat}
    (h : c.ruled s t (some search) label position = .ok none)
    (hlast : s.lastRide label = .ok (some (ride, stop))) :
    search.find t (c.changeAt label ride stop position) c.runs = .ok none := by
  unfold ruled at h
  dsimp only at h
  split at h
  case isTrue hnone =>
    have hentries : search.rules.entriesAt position = [] := by
      simpa [PatternRules.existAt] using hnone
    rw [RuleSearch.find, RuleSearch.candidates]
    simp only [changeAt, hentries]
    rfl
  case isFalse =>
    rw [hlast] at h
    simp only [bind, Except.bind] at h
    cases hfind : search.find t (c.changeAt label ride stop position) c.runs with
    | error fault =>
      rw [hfind] at h
      cases h
    | ok found =>
      rw [hfind] at h
      cases found with
      | none => rfl
      | some found => cases h

/-- The ride that is chosen in a change has the trip and the constraint of the boarding. -/
theorem Turns.chosen_eq
    (h : c.Turns course s prior between last p t id ended before after ride' ride walk e k)
    (horder : c.direction.InOrder prior last first second) :
    (c.direction.chosenRide first second).trip = ride.trip ∧
      second.constraint = ride.constraint := by
  have hlast := h.last_eq
  unfold realRide at hlast
  cases hd : c.direction with
  | forward =>
    rw [hd] at horder hlast
    obtain ⟨rfl, rfl⟩ := horder
    rw [hlast]
    exact ⟨rfl, rfl⟩
  | reverse =>
    rw [hd] at horder hlast
    obtain ⟨⟨_, rfl⟩, rfl⟩ := horder
    rw [hlast]
    exact ⟨rfl, rfl⟩

/-- The search asks its rules about the change of the traveller. -/
theorem Turns.changeBetween_eq
    (h : c.Turns course s prior between last p t id ended before after ride' ride walk e k)
    (hj : c.Justified course s) (hnet : course.network.Sound) (hfor : c.For course request)
    (horder : c.direction.InOrder prior last first second) :
    c.changeAt before ride' ended.stop ride.boardPosition =
      request.slacks.changeBetween request.direction first walk second := by
  rw [h.changeAt_eq hj hnet, ← hfor.slacks_eq, ← hfor.direction_eq]
  cases hd : c.direction with
  | forward =>
    rw [hd] at horder
    obtain ⟨rfl, rfl⟩ := horder
    rfl
  | reverse =>
    rw [hd] at horder
    obtain ⟨⟨_, rfl⟩, rfl⟩ := horder
    rfl

/-- What the scan of the search finds for a change is what the rules of the network find for it. -/
theorem Turns.scans
    (h : c.Turns course s prior between last p t id ended before after ride' ride walk e k)
    (hj : c.Justified course s) (hnet : course.network.Sound) (hof : c.Of course.network)
    (hfor : c.For course request) (hrules : c.rules = request.rules course.network)
    (horder : c.direction.InOrder prior last first second) {search : RuleSearch}
    {found : Option Boarding} (hsearch : c.ruleSearch p = some search)
    (hfind : search.find t (c.changeAt before ride' ended.stop ride.boardPosition) c.runs =
      .ok found) :
    course.network.Scans request first walk second found := by
  have htrip : (request.direction.chosenRide first second).trip = ride.trip := by
    rw [← hfor.direction_eq, (h.chosen_eq horder).1]
  cases hindex : c.rules with
  | none =>
    rw [ruleSearch, hindex] at hsearch
    cases hsearch
  | some index =>
    obtain ⟨search', hsearch', hboarding⟩ := exists_ruleSearch hnet hof h.pattern hindex
    obtain rfl := Option.some.inj (hsearch.symm.trans hsearch')
    rw [hnet.pattern_id h.pattern, hfor.direction_eq, hfor.definitive_eq] at hboarding
    rw [h.changeBetween_eq hj hnet hfor horder] at hfind
    refine ⟨index, search, t, hrules ▸ hindex, ?_, ?_, ?_⟩
    · rw [htrip]
      exact hboarding
    · rw [htrip]
      exact fetch_of_getElem? h.timetable
    · rw [← hfor.services_eq]
      exact hfind

/-- A change whose ride comes in time for a regular boarding is feasible. -/
theorem Turns.feasible
    (h : c.Turns course s prior between last p t id ended before after ride' ride walk e k)
    (hj : c.Justified course s) (hnet : course.network.Sound) (hfor : c.For course request)
    (horder : c.direction.InOrder prior last first second)
    (hinTime : c.direction.NoLater (c.earliest before)
      (c.direction.boardingAt ride.trip ride.boardPosition)) :
    (ConnectionScene.ofRequest course.network request).Feasible first.leaving second.boarding walk
      .regular := by
  have hearliest : c.earliest before =
      (request.slacks.changeBetween request.direction first walk second).earliest := by
    rw [← h.changeBetween_eq hj hnet hfor horder]
    rfl
  have hlast := h.last_eq
  unfold realRide at hlast
  refine Network.feasible_regular ?_
  rw [hearliest, ← hfor.direction_eq] at hinTime
  rw [← hfor.direction_eq]
  cases hd : c.direction with
  | forward =>
    rw [hd] at hinTime horder hlast
    obtain ⟨rfl, rfl⟩ := horder
    have hdeparts : second.departs = Direction.forward.boardingAt ride.trip ride.boardPosition := by
      rw [hlast]
      rfl
    dsimp only
    rwa [hdeparts]
  | reverse =>
    rw [hd] at hinTime horder hlast
    obtain ⟨⟨_, rfl⟩, rfl⟩ := horder
    have harrives : last.arrives = Direction.reverse.boardingAt ride.trip ride.boardPosition := by
      rw [hlast]
      rfl
    change Direction.reverse.NoLater _ last.arrives
    rwa [harrives]

/-- A change that the search made is settled by the rules, or it is left open and made regularly. -/
theorem Turns.ruled
    (h : c.Turns course s prior between last p t id ended before after ride' ride walk e k)
    (hj : c.Justified course s) (hnet : course.network.Sound) (hof : c.Of course.network)
    (hfor : c.For course request) (hrules : c.rules = request.rules course.network)
    (horder : c.direction.InOrder prior last first second) :
    course.network.Settled request first walk second ∨
      (course.network.Regular request first walk second ∧
        (request.rules course.network = none ∨
          course.network.LeavesOpen request first walk second)) := by
  obtain ⟨htrip, hconstraint⟩ := h.chosen_eq horder
  rw [hfor.direction_eq] at htrip
  have hride : ride.trip = e.trip ∧ ride.constraint = e.constraint := by
    rw [h.ride_eq]
    exact ⟨rfl, rfl⟩
  rcases choose_eq_some h.choose with
    ⟨found, rideEnd, hruled, hallowed, rfl, -⟩ | ⟨hruled, rank, trip, hbest, rfl, -⟩
  · obtain ⟨search, ride'', rideStop, hsearch, hlast, hfind, -⟩ := ruled_eq_some hruled
    obtain ⟨rfl, rfl⟩ :=
      Prod.mk.inj (Option.some.inj (Except.ok.inj (h.follows.lastRide_eq.symm.trans hlast)))
    refine .inl ⟨found, h.scans hj hnet hof hfor hrules horder hsearch hfind, ?_, ?_, ?_⟩
    · exact (htrip.trans hride.1).symm
    · exact (hconstraint.trans hride.2).symm
    · rintro hforbidden
      rw [hforbidden] at hallowed
      cases hallowed
  · have hinTime := noLater_of_bestTrip (hnet.timetable_sound h.pattern h.timetable) h.board_lt hbest
    rw [← show ride.trip = trip from hride.1] at hinTime
    refine .inr ⟨⟨hconstraint.trans hride.2, h.feasible hj hnet hfor horder hinTime⟩, ?_⟩
    cases hindex : c.rules with
    | none => exact .inl (hrules ▸ hindex)
    | some index =>
      obtain ⟨search, hsearch, -⟩ := exists_ruleSearch hnet hof h.pattern hindex
      rw [hsearch] at hruled
      exact .inr (h.scans hj hnet hof hfor hrules horder hsearch
        (ruled_eq_none hruled h.follows.lastRide_eq))

theorem Turns.walkedTime_eq
    (h : c.Turns course s prior between last p t id ended before after ride' ride walk e k) :
    walkedTime between = walk ∧ between.reverse = between := by
  rcases h.between_eq with ⟨rfl, rfl, -⟩ | ⟨rfl, -⟩
  · exact ⟨rfl, rfl⟩
  · refine ⟨?_, rfl⟩
    unfold realWalk
    cases c.direction with
    | forward | reverse => exact Int.add_zero _

/-- Two rides of an itinerary with nothing but walks between them are a change that the search
made. -/
theorem exists_turns_of_itinerary {it : Itinerary} {finish : Finish} {date : Date}
    {front back : List Leg} {first second : Ride}
    (h : c.itinerary? s finish = .ok (some it)) (hj : c.Justified course s)
    (hnet : course.network.Sound) (hservices : c.services = course.network.servicesOn date)
    (hlegs : it.legs = front ++ .ride first :: (between ++ .ride second :: back))
    (hwalks : ∀ leg ∈ between, leg.isRide = false) :
    ∃ (prior last : Ride) (between' : List Leg) (p : Pattern) (t : Timetable) (id : LabelId)
      (ended before after : Label) (ride' ride : SearchRide) (e : Boarded) (k : AboardCriteria),
      c.Turns course s prior between' last p t id ended before after ride' ride
        (walkedTime between) e k ∧
      c.direction.InOrder prior last first second ∧
      (course.network.Offers date prior ∧ prior.Timed) ∧
      (course.network.Offers date last ∧ last.Timed) := by
  cases assembles_of_itinerary h with
  | @forward _ _ legs hd htraces hnew =>
    obtain ⟨-, -, huntimed, -⟩ := Itinerary.new_eq_ok hnew
    obtain ⟨front', between', back', hlegs', hbetween, hwalks'⟩ :=
      exists_of_untimed huntimed hlegs hwalks
    have hparts : legs = back'.reverse ++
        .ride second :: (between'.reverse ++ .ride first :: front'.reverse) := by
      rw [← List.reverse_reverse legs, hlegs']
      simp
    have hoffers := htraces.offers hj hnet hservices
    rw [hparts] at htraces hoffers
    obtain ⟨id', hsuffix⟩ := htraces.suffix
    obtain ⟨p, t, id, ended, before, after, ride', ride, walk, e, k, hturns⟩ :=
      hsuffix.turns (fun leg hleg => hwalks' leg (List.mem_reverse.mp hleg)) hj hnet hservices
    have hwalk : walkedTime between = walk := by
      rw [walkedTime_congr hbetween, ← hturns.walkedTime_eq.1, ← hturns.walkedTime_eq.2,
        List.reverse_reverse]
    rw [hwalk, hd]
    exact ⟨first, second, between'.reverse, p, t, id, ended, before, after, ride', ride, e, k,
      hturns, ⟨rfl, rfl⟩, hoffers first (by simp), hoffers second (by simp)⟩
  | reverse hd htraces _ hnew =>
    obtain ⟨-, -, huntimed, -⟩ := Itinerary.new_eq_ok hnew
    obtain ⟨front', between', back', hlegs', hbetween, hwalks'⟩ :=
      exists_of_untimed huntimed hlegs hwalks
    obtain ⟨front'', last, prior, constraint, back'', hparts, rfl, rfl⟩ :=
      delayConstraints_decompose hlegs' hwalks'
    have hoffers := htraces.offers hj hnet hservices
    rw [hparts] at htraces hoffers
    obtain ⟨id', hsuffix⟩ := htraces.suffix
    obtain ⟨p, t, id, ended, before, after, ride', ride, walk, e, k, hturns⟩ :=
      hsuffix.turns hwalks' hj hnet hservices
    have hwalk : walkedTime between = walk := by
      rw [walkedTime_congr hbetween, hturns.walkedTime_eq.1]
    rw [hwalk, hd]
    exact ⟨prior, last, between', p, t, id, ended, before, after, ride', ride, e, k, hturns,
      ⟨⟨constraint, rfl⟩, rfl⟩, hoffers prior (by simp), hoffers last (by simp)⟩

end LabelScene

/-- The rules settle a change of a route, or it is made regularly: then there are no rules, or they
leave it open. Both rides are offered. -/
theorem Network.ruled_of_mem_route {net : Network} {request : Request} {result : RouteResult}
    {it : Itinerary} {front between back : List Leg} {first second : Ride} (hnet : net.Sound)
    (hroute : net.route request = .ok result) (hit : it ∈ result.itineraries)
    (hlegs : it.legs = front ++ .ride first :: (between ++ .ride second :: back))
    (hwalks : ∀ leg ∈ between, leg.isRide = false) :
    (net.Offers request.date first ∧ first.Timed) ∧
      (net.Offers request.date second ∧ second.Timed) ∧
      (net.Settled request first (walkedTime between) second ∨
        (net.Regular request first (walkedTime between) second ∧
          (request.rules net = none ∨
            net.LeavesOpen request first (walkedTime between) second))) := by
  obtain ⟨tariff, bounds, times, progress, e, hrun, he, hitinerary⟩ :=
    Network.exists_finish_of_mem_route hroute hit
  have hj := (Network.yields_justified hnet).of_ok hrun
  obtain ⟨prior, last, _, _, _, _, _, _, _, _, _, _, _, hturns, hpair, hprior, hlast⟩ :=
    LabelScene.exists_turns_of_itinerary hitinerary hj hnet Network.labelScene_for.services_eq
      hlegs hwalks
  have hruled := hturns.ruled hj hnet Network.labelScene_of Network.labelScene_for rfl hpair
  cases hd : (net.labelScene request tariff (some bounds)).direction with
  | forward =>
    rw [hd] at hpair
    obtain ⟨rfl, rfl⟩ := hpair
    exact ⟨hprior, hlast, hruled⟩
  | reverse =>
    rw [hd] at hpair
    obtain ⟨⟨_, rfl⟩, rfl⟩ := hpair
    exact ⟨⟨hlast.1, hlast.2.board, hlast.2.alight⟩,
      ⟨hprior.1, hprior.2.board, hprior.2.alight⟩, hruled⟩

/-- The changes of a route under the rules. A change that has the constraint of the rule about it is
feasible under that rule. One that is labelled as regular, though a rule says otherwise, has been
left open by the rules, since they admit none of the first five trips: it is feasible under the rule
unless the rule forbids it or asks for more time than there is. Going back in time, a rule with a
mixed side may be missed besides. -/
theorem route_change_rule {draft : Draft} {net : Network} {request : Request}
    {result : RouteResult} {it : Itinerary} {front between back : List Leg} {first second : Ride}
    (hbuild : draft.build = .ok net) (hslacks : request.slacks.Nonneg)
    (hroute : net.route request = .ok result) (hit : it ∈ result.itineraries)
    (hlegs : it.legs = front ++ .ride first :: (between ++ .ride second :: back))
    (hwalks : ∀ leg ∈ between, leg.isRide = false) :
    ∃ source target known,
      TripCall.arriving first.trip first.alightPosition first.alightStop = .ok source ∧
      TripCall.departing second.trip second.boardPosition second.boardStop = .ok target ∧
      known = (ConnectionScene.ofRequest net request).constraintBetween source target ∧
      Yields ((ConnectionScene.ofRequest net request).isFeasible source target
        (walkedTime between) known) (fun feasible =>
          (second.constraint = known → feasible = true) ∧
          (second.constraint = .regular → (feasible = true ↔ known ≠ .notAllowed ∧
            ∀ least, known = .minTime least → source.time + least ≤ target.time))) ∧
      (second.constraint = known ∨
        (second.constraint = .regular ∧
          net.LeavesOpen request first (walkedTime between) second ∧
          net.AdmitsNone request first (walkedTime between) second) ∨
        (request.direction = .reverse ∧ ∃ index, net.rules = some index ∧
          ∃ rule ∈ index.rules, rule.source.IsMixed ∨ rule.target.IsMixed)) := by
  have hnet := Draft.build_sound hbuild
  obtain ⟨⟨hfirst, hfirstTimed⟩, ⟨hsecond, hsecondTimed⟩, hruled⟩ :=
    Network.ruled_of_mem_route hnet hroute hit hlegs hwalks
  refine ⟨first.leaving, second.boarding, _, hfirstTimed.arriving, hsecondTimed.departing, rfl,
    ?_, ?_⟩
  · refine ConnectionScene.yields_isFeasible.mono fun feasible _ hfeasible => ⟨fun hknown => ?_,
      fun hregular => ?_⟩
    · rw [hfeasible, ← hknown]
      rcases hruled with hsettled | ⟨⟨hconstraint, hregular⟩, -⟩
      · exact hsettled.feasible hnet hfirst hsecond
      · rwa [hconstraint]
    · rw [hfeasible]
      refine ConnectionScene.feasible_iff_of_regular hslacks ?_
      rcases hruled with hsettled | ⟨⟨-, hregular⟩, -⟩
      · rw [← hregular]
        exact hsettled.feasible hnet hfirst hsecond
      · exact hregular
  · rcases hruled with hsettled | ⟨⟨hconstraint, -⟩, hnone | hopen⟩
    · by_cases hmixed : request.direction = .reverse ∧ ∃ index, net.rules = some index ∧
          ∃ rule ∈ index.rules, rule.source.IsMixed ∨ rule.target.IsMixed
      · exact .inr (.inr hmixed)
      · refine .inl (hsettled.constraint_eq hnet hfirst hsecond
          fun hd index hindex rule hrule => ?_)
        rw [← not_or]
        exact fun hside => hmixed ⟨hd, index, hindex, rule, hrule, hside⟩
    · refine .inl ?_
      rw [hconstraint, ConnectionScene.constraintBetween,
        show (ConnectionScene.ofRequest net request).rules = none from hnone]
      rfl
    · exact .inr (.inl ⟨hconstraint, hopen, hopen.admitsNone⟩)

/-- A red line from A to B and a blue line from there to C, with one trip each, between which no
change is allowed. -/
def forbiddenChange : Draft :=
  { Draft.new Draft.defaultDate with
    routes := #[⟨"red", 0⟩, ⟨"blue", 0⟩]
    trips := #[
      ⟨"red 1", 0, Draft.defaultCalendar,
        [⟨"A", 36000, 36000, .boardAndAlight⟩, ⟨"B", 36600, 36600, .boardAndAlight⟩]⟩,
      ⟨"blue 1", 1, Draft.defaultCalendar,
        [⟨"B", 37800, 37800, .boardAndAlight⟩, ⟨"C", 38400, 38400, .boardAndAlight⟩]⟩]
    rules := [⟨.tripStop "red 1" 1, .tripStop "blue 1" 0, .notAllowed⟩] }

def fromAToC : Request :=
  { date := Draft.defaultDate
    direction := .forward
    time := 35000
    access := [⟨0, 0, 0, false⟩]
    egress := [⟨2, 0, 0, false⟩] }

/-- An itinerary consists of two rides between which a change is not allowed. -/
def changesForbidden (net : Network) (request : Request) (it : Itinerary) : Bool :=
  match it.legs with
  | [.ride first, .ride second] =>
    match TripCall.arriving first.trip first.alightPosition first.alightStop,
      TripCall.departing second.trip second.boardPosition second.boardStop with
    | .ok source, .ok target =>
      (ConnectionScene.ofRequest net request).constraintBetween source target == .notAllowed &&
        second.constraint == .regular
    | _, _ => false
  | _ => false

/-- The change that is not allowed is made, since the only trip of the blue line is passed over and
the question is left to the regular search. -/
theorem route_change_rule_forbidden : ∃ net result it first second source target,
    forbiddenChange.build = .ok net ∧ fromAToC.slacks.Nonneg ∧
    net.route fromAToC = .ok result ∧ it ∈ result.itineraries ∧
    it.legs = [] ++ .ride first :: ([] ++ .ride second :: []) ∧
    TripCall.arriving first.trip first.alightPosition first.alightStop = .ok source ∧
    TripCall.departing second.trip second.boardPosition second.boardStop = .ok target ∧
    (ConnectionScene.ofRequest net fromAToC).constraintBetween source target = .notAllowed ∧
    net.LeavesOpen fromAToC first (walkedTime []) second ∧
    net.AdmitsNone fromAToC first (walkedTime []) second ∧
    Yields ((ConnectionScene.ofRequest net fromAToC).isFeasible source target (walkedTime [])
      .notAllowed) (· = false) := by
  have hfinds : forbiddenChange.finds fromAToC (changesForbidden · fromAToC) = true := by
    decide +kernel
  obtain ⟨net, result, it, hbuild, hroute, hit, hforbidden⟩ := Draft.exists_of_finds hfinds
  unfold changesForbidden at hforbidden
  split at hforbidden
  case h_2 => cases hforbidden
  case h_1 first second hlegs =>
    split at hforbidden
    case h_2 => cases hforbidden
    case h_1 source target hsource htarget =>
      simp only [Bool.and_eq_true, beq_iff_eq] at hforbidden
      obtain ⟨hknown, hregular⟩ := hforbidden
      have hslacks : fromAToC.slacks.Nonneg := by
        constructor <;> decide
      have hlegs' : it.legs = [] ++ .ride first :: ([] ++ .ride second :: []) := hlegs
      obtain ⟨source', target', known, hsource', htarget', rfl, hfeasible, hlabel⟩ :=
        route_change_rule hbuild hslacks hroute hit hlegs' (by simp)
      obtain rfl := Except.ok.inj (hsource.symm.trans hsource')
      obtain rfl := Except.ok.inj (htarget.symm.trans htarget')
      rw [hknown] at hfeasible hlabel
      have hleft : net.LeavesOpen fromAToC first (walkedTime []) second ∧
          net.AdmitsNone fromAToC first (walkedTime []) second := by
        rcases hlabel with hlabel | ⟨-, hleft⟩ | ⟨hreverse, -⟩
        · rw [hregular] at hlabel
          cases hlabel
        · exact hleft
        · cases hreverse
      have hrefused := hfeasible.mono fun feasible _ hanswer => hanswer.2 hregular
      exact ⟨net, result, it, first, second, source, target, hbuild, hslacks, hroute, hit, hlegs,
        hsource, htarget, hknown, hleft.1, hleft.2, by simpa using hrefused⟩

end JourneyPlanner
