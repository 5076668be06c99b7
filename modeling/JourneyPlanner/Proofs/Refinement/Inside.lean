import JourneyPlanner.Proofs.Budget
import JourneyPlanner.Proofs.Refinement.Ends
import JourneyPlanner.Proofs.Refinement.Feasibility
import JourneyPlanner.Proofs.Search.Rounds

/-!
# Refinement inside the tables

The choice of transfers looks at times, stops and flows by position, and prices waits that need the
safe transfer time. Where the rides of an itinerary are between positions of their patterns, all
these positions are inside, and so are those of every tail: a ride is left at a position of its
pattern, and boarded before it is left. Nothing but an overflow can thus end a refinement.

* `Ride.Inside`, `Network.Places`: rides between positions of their trips, and of their patterns.
* `ConnectionScene.yields_alternatives`: the connections between rides.
* `Tail.Placed`: tails of such rides, and what a ride in front of them makes of them.
* `RefinementScene.yields_refine`, `RefinementScene.yields_refineAll`: itineraries and their texts.
-/

namespace JourneyPlanner

open Itinerary (AllTimed)

/-! ### Rides -/

/-- A ride between positions of its trip. -/
structure Ride.Inside (r : Ride) : Prop where
  size_eq : r.trip.arrivals.size = r.trip.departures.size
  board : r.boardPosition < r.trip.departures.size
  alight : r.alightPosition < r.trip.arrivals.size

/-- A ride is between positions of the pattern of its trip. -/
def Network.Places (net : Network) (r : Ride) : Prop :=
  ∃ p, net.patterns[r.trip.pattern]? = some p ∧ r.trip.Fits p.length ∧
    r.boardPosition < p.length ∧ r.alightPosition < p.length

theorem Ride.Inside.timed {r : Ride} (h : r.Inside) : r.Timed where
  board := by simp [boardTime, Trip.departure, fetch, departs, h.board]
  alight := by simp [alightTime, Trip.arrival, fetch, arrives, h.alight]

/-- A ride between positions of its pattern is inside its trip. -/
theorem Network.Places.inside {net : Network} {r : Ride} (h : net.Places r) : r.Inside := by
  obtain ⟨p, -, hfits, hboard, halight⟩ := h
  exact ⟨hfits.arrivals_size.trans hfits.departures_size.symm, hfits.departures_size ▸ hboard,
    hfits.arrivals_size ▸ halight⟩

/-! ### Texts -/

theorem Time.yields_format {time : Time} : Yields (Time.format time) fun _ => True :=
  (yields_magnitude _).bind fun _ _ _ => trivial

theorem Time.yields_formatShort {time : Time} : Yields (Time.formatShort time) fun _ => True :=
  (yields_magnitude _).bind fun _ _ _ => trivial

theorem Span.yields_format {span : Span} : Yields (Span.format span) fun _ => True :=
  (yields_magnitude _).bind fun _ _ _ => trivial

theorem yields_walkText {duration : Span} : Yields (walkText duration) fun _ => True :=
  Span.yields_format.bind fun _ _ _ => trivial

/-- The text of a part is read off its trip where it has times. -/
theorem Leg.yields_toText {leg : Leg} (h : ∀ r, leg = .ride r → r.Timed) :
    Yields leg.toText fun _ => True := by
  cases leg with
  | walk stroll => exact yields_walkText.bind fun _ _ _ => trivial
  | ride r =>
    have htimes : Yields r.times fun _ => True := by
      rw [Ride.times, (h r rfl).board, (h r rfl).alight]
      exact Time.yields_formatShort.bind fun _ _ _ =>
        Time.yields_formatShort.bind fun _ _ _ => trivial
    exact htimes.bind fun _ _ _ => trivial

/-- An itinerary whose rides have times has a text. -/
theorem Itinerary.yields_toText {it : Itinerary} (h : AllTimed it.legs) :
    Yields it.toText fun _ => True := by
  have hsummary : Yields it.summary fun _ => True :=
    Time.yields_format.bind fun _ _ _ => Time.yields_format.bind fun _ _ _ =>
      (yields_word _).bind fun _ _ _ => Span.yields_format.bind fun _ _ _ => trivial
  refine yields_walkText.bind fun _ _ _ => ?_
  refine (Yields.mapM fun leg hleg => Leg.yields_toText fun r hr => h r (hr ▸ hleg)).bind
    fun _ _ _ => ?_
  exact yields_walkText.bind fun _ _ _ => hsummary.bind fun _ _ _ => trivial

/-! ### Connections -/

namespace ConnectionScene

variable {s : ConnectionScene} {source : TripCall} {stop : StopId} {walk : Option Walk}
  {p : Pattern} {trip : Trip} {ride next : Ride} {position boardPosition : Nat} {rides : List Ride}

/-- A connection to a position of a pattern starts where it is asked for. -/
theorem yields_connectionAt (hnet : s.network.Sound) {i : PatternId}
    (hp : s.network.patterns[i]? = some p) (hfits : trip.Fits p.length)
    (hposition : position < p.length) :
    Yields (s.connectionAt? source stop walk p trip position) fun found =>
      ∀ c, found = some c → c.source = source := by
  have hstop : Yields (p.stopAt position) fun _ => True :=
    (yields_fetch hposition).mono fun _ _ _ => trivial
  refine hstop.bind fun _ _ _ => Yields.ite (fun _ => by simp) fun _ => ?_
  obtain ⟨boards, hboards⟩ := hnet.exists_canBoard hp hposition .forward
  have hboards : p.canBoard position = .ok boards := hboards
  rw [hboards]
  refine Yields.ite (fun _ => by simp) fun _ => ?_
  have htarget : Yields (TripCall.departing trip position stop) fun _ => True :=
    (yields_fetch (hfits.departures_size ▸ hposition)).bind fun _ _ _ => trivial
  refine htarget.bind fun target _ _ => yields_isFeasible.bind fun feasible _ _ => ?_
  refine Yields.ite (fun _ => ?_) fun _ => by simp
  rintro c ⟨⟩
  rfl

/-- So do all connections to a ride. -/
theorem yields_connectionsTo (hnet : s.network.Sound) (hnext : s.network.Places next) :
    Yields (s.connectionsTo source stop walk next) fun found => ∀ c ∈ found, c.source = source := by
  obtain ⟨p, hp, hfits, -, halight⟩ := hnext
  refine (yields_fetch (Array.getElem?_eq_some_iff.mp hp).1).bind fun p' _ hp' => ?_
  obtain rfl := Option.some.inj (hp.symm.trans hp')
  refine (Yields.mapM_mem fun position hposition => yields_connectionAt hnet hp hfits
    ((List.mem_range.mp hposition).trans halight)).bind fun found _ hfound => ?_
  intro c hc
  obtain ⟨_, hmem, rfl⟩ := List.mem_filterMap.mp hc
  obtain ⟨position, -, hsource⟩ := hfound.2 _ hmem
  exact hsource c rfl

/-- The connections that leave a ride at a position start there. -/
theorem yields_connectionsFrom (hnet : s.network.Sound) {i : PatternId}
    (hp : s.network.patterns[i]? = some p) (hfits : ride.trip.Fits p.length)
    (hposition : position < p.length) (hnext : s.network.Places next) :
    Yields (s.connectionsFrom ride next p position) fun found =>
      ∀ c ∈ found, c.source.position = position := by
  obtain ⟨alights, halights⟩ := hnet.exists_canAlight hp hposition .forward
  have halights : p.canAlight position = .ok alights := halights
  rw [connectionsFrom, halights]
  refine Yields.ite (fun _ => by simp) fun _ => ?_
  refine (yields_fetch hposition).bind fun stop _ hstop => ?_
  have hsource : Yields (TripCall.arriving ride.trip position stop) fun source =>
      source.position = position :=
    (yields_fetch (hfits.arrivals_size ▸ hposition)).bind fun _ _ _ => rfl
  refine hsource.bind fun source _ hsource => ?_
  refine (yields_connectionsTo hnet hnext).bind fun there _ hthere => ?_
  refine (hnet.yields_walks .forward (hnet.stop_lt hp hstop)).bind fun walks _ _ => ?_
  refine (Yields.mapM_mem fun walk _ => yields_connectionsTo hnet hnext).bind
    fun byWalk _ hbyWalk => ?_
  intro c hc
  rcases List.mem_append.mp hc with hc | hc
  · rw [hthere c hc, hsource]
  · obtain ⟨found, hfound, hc⟩ := List.mem_flatten.mp hc
    obtain ⟨walk, -, hwalk⟩ := hbyWalk.2 found hfound
    rw [hwalk c hc, hsource]

/-- The connections from a ride to the next one leave it at positions of its trip. -/
theorem yields_connections (hnet : s.network.Sound) (hride : s.network.Places ride)
    (hnext : s.network.Places next) :
    Yields (s.connections ride boardPosition next) fun found =>
      ∀ c ∈ found, c.source.position < ride.trip.arrivals.size := by
  obtain ⟨p, hp, hfits, -, -⟩ := hride
  refine (yields_fetch (Array.getElem?_eq_some_iff.mp hp).1).bind fun p' _ hp' => ?_
  obtain rfl := Option.some.inj (hp.symm.trans hp')
  have hinside : ∀ position ∈
      List.range' (boardPosition + 1) (p.length - (boardPosition + 1)), position < p.length := by
    intro position hposition
    have := List.mem_range'_1.mp hposition
    omega
  refine (Yields.mapM_mem fun position hposition => yields_connectionsFrom hnet hp hfits
    (hinside position hposition) hnext).bind fun found _ hfound => ?_
  intro c hc
  obtain ⟨part, hpart, hc⟩ := List.mem_flatten.mp hc
  obtain ⟨position, hposition, hsource⟩ := hfound.2 part hpart
  rw [hsource c hc, hfits.arrivals_size]
  exact hinside position hposition

/-- The alternatives leave their rides inside the trips. -/
theorem yields_alternativesFrom (hnet : s.network.Sound) (hride : s.network.Places ride)
    (hrides : ∀ r ∈ rides, s.network.Places r) :
    Yields (s.alternativesFrom boardPosition ride rides) fun alternatives =>
      ∀ step ∈ (ride :: rides).zip alternatives, ∀ c ∈ step.2,
        c.source.position < step.1.trip.arrivals.size := by
  induction rides generalizing boardPosition ride with
  | nil => simp [alternativesFrom]
  | cons next rest ih =>
    rw [List.forall_mem_cons] at hrides
    refine (yields_connections hnet hride hrides.1).bind fun found _ hfound => ?_
    refine (ih hrides.1 hrides.2).bind fun others _ hothers => ?_
    exact List.forall_mem_cons.mpr ⟨hfound, hothers⟩

/-- The connections between rides leave each of them at positions of its trip. -/
theorem yields_alternatives (hnet : s.network.Sound)
    (hrides : ∀ r ∈ rides, s.network.Places r) :
    Yields (s.alternatives rides) fun alternatives =>
      ∀ step ∈ rides.zip alternatives, ∀ c ∈ step.2,
        c.source.position < step.1.trip.arrivals.size := by
  cases rides with
  | nil => simp [alternatives]
  | cons first rest =>
    rw [List.forall_mem_cons] at hrides
    exact yields_alternativesFrom hnet hrides.1 hrides.2

end ConnectionScene

/-! ### Scores -/

/-- Where waits count, the safe transfer time is known. -/
def Pricing.Safe (penalty : Option WaitPenalty) : Prop :=
  ∀ p, penalty = some p → p.safeTime ≠ none

section

variable {penalty : Option WaitPenalty} {legs : List Leg}

/-- Once the safe transfer time is known every wait has a cost. -/
theorem WaitPenalty.yields_cost {penalty : WaitPenalty} (h : penalty.safeTime ≠ none)
    {wait : Span} : Yields (penalty.cost wait) fun _ => True := by
  have hshort : Yields (penalty.shortWait wait) fun _ => True := by
    unfold shortWait
    cases hsafe : penalty.safeTime with
    | none => exact absurd hsafe h
    | some safe => trivial
  exact hshort.bind fun _ _ _ => trivial

theorem yields_waitCost {penalty : WaitPenalty} (h : penalty.safeTime ≠ none) {r : Ride}
    (hr : r.Timed) {alighting : Time} {walked : Span} :
    Yields (waitCost penalty r alighting walked) fun _ => True := by
  have hregular : Yields (do
      let between ← word ((← r.boardTime) - alighting)
      let wait ← word (between - walked)
      return Cost.ofFloat (← penalty.cost wait)) fun _ => True := by
    rw [hr.board]
    exact (yields_word _).bind fun _ _ _ => (yields_word _).bind fun _ _ _ =>
      (WaitPenalty.yields_cost h).bind fun _ _ _ => trivial
  unfold waitCost
  cases r.constraint with
  | staySeated | guaranteed => trivial
  | _ => exact hregular

theorem yields_addTransferCost (hpenalty : Pricing.Safe penalty) {state : TransferState} {leg : Leg}
    (hleg : ∀ r, leg = .ride r → r.Timed) :
    Yields (addTransferCost penalty state leg) fun _ => True := by
  cases leg with
  | walk stroll => exact (yields_word _).bind fun _ _ _ => trivial
  | ride r =>
    have hr := hleg r rfl
    rw [addTransferCost, hr.alight]
    cases state.alighting with
    | none => trivial
    | some alighting =>
      refine (yields_word _).bind fun _ _ _ => ?_
      cases penalty with
      | none => trivial
      | some penalty =>
        exact (yields_waitCost (hpenalty penalty rfl) hr).bind fun _ _ _ =>
          (yields_word _).bind fun _ _ _ => trivial

theorem yields_scoreOf (hpenalty : Pricing.Safe penalty) (hlegs : AllTimed legs)
    {generalized : Cost} : Yields (scoreOf penalty legs generalized) fun _ => True := by
  have hcosts : Yields (transferCosts penalty legs) fun _ => True :=
    (Yields.foldlM (I := fun _ => True) trivial fun _ leg hleg _ =>
      yields_addTransferCost hpenalty fun r hr => hlegs r (hr ▸ hleg)).bind fun _ _ _ => trivial
  exact hcosts.bind fun _ _ _ => (yields_word _).bind fun _ _ _ => trivial

theorem ScoredItinerary.yields_new (hpenalty : Pricing.Safe penalty) {it : Itinerary}
    (hlegs : AllTimed it.legs) :
    Yields (ScoredItinerary.new penalty it) fun scored => scored.itinerary = it :=
  (yields_scoreOf hpenalty hlegs).bind fun _ _ _ => rfl

end

/-! ### Tails -/

namespace Tail

/-- A tail starts with a ride on a trip, and all its rides are between positions of their trips. -/
structure Placed (tail : Tail) (trip : Trip) : Prop where
  head : ∃ head rest, tail.legs = .ride head :: rest ∧ head.trip = trip
  inside : ∀ r, .ride r ∈ tail.legs → r.Inside

variable {pricing : Pricing} {legs : List Leg} {egress : Connector} {tail : Tail} {trip : Trip}
  {ride : Ride} {connection : Connection} {whole : Itinerary}

theorem yields_addLegCost {state : CostState} {leg : Leg} (hleg : ∀ r, leg = .ride r → r.Timed) :
    Yields (addLegCost pricing state leg) fun _ => True := by
  cases leg with
  | walk stroll =>
    refine Tariff.yields_walkCost.bind fun _ _ _ => (yields_word _).bind fun _ _ _ => ?_
    cases state.arrival with
    | none => trivial
    | some arrival => exact (yields_word _).bind fun _ _ _ => trivial
  | ride r =>
    have hr := hleg r rfl
    rw [addLegCost, hr.board, hr.alight]
    have hrest : ∀ boarded : Cost, Yields (do
        let riding ← pricing.tariff.ridingCost 0 pricing.slacks.alight (← r.duration) r.trip
          r.alightStop
        let cost ← word (boarded + riding)
        let alighting ← (.ok r.arrives : Checked Time)
        return (⟨cost, some (← word (alighting + pricing.slacks.alight)), alighting⟩ :
          CostState)) fun _ => True := by
      intro boarded
      refine hr.yields_duration.bind fun _ _ _ => Tariff.yields_ridingCost.bind fun _ _ _ => ?_
      exact (yields_word _).bind fun _ _ _ => (yields_word _).bind fun _ _ _ => trivial
    cases state.arrival with
    | none => exact hrest _
    | some arrival =>
      exact Tariff.yields_boardingCost.bind fun _ _ _ => (yields_word _).bind fun _ _ _ => hrest _

/-- The tail of rides with times. -/
theorem yields_ofLegs (hpenalty : Pricing.Safe pricing.penalty) (hlegs : AllTimed legs) :
    Yields (ofLegs pricing legs egress) fun tail => tail.legs = legs := by
  refine (Yields.foldlM (I := fun _ => True) trivial fun _ leg hleg _ =>
    yields_addLegCost fun r hr => hlegs r (hr ▸ hleg)).bind fun _ _ _ => ?_
  exact (yields_word _).bind fun _ _ _ => (yields_scoreOf hpenalty hlegs).bind fun _ _ _ => rfl

/-- The tail of the last ride of an itinerary. -/
theorem yields_ofItinerary? (hpenalty : Pricing.Safe pricing.penalty)
    (hlegs : ∀ r, .ride r ∈ whole.legs → r.Inside) :
    Yields (ofItinerary? pricing whole) fun found =>
      ∀ tail, found = some tail → ∃ trip, tail.Placed trip := by
  rw [ofItinerary?]
  cases hparts : fromLastRide? whole.legs with
  | none => simp
  | some parts =>
    obtain ⟨before, last, after, rfl, hwhole, -⟩ := fromLastRide?_eq_some hparts
    have hinside : ∀ r, .ride r ∈ .ride last :: after → r.Inside := fun r hr =>
      hlegs r (hwhole ▸ List.mem_append_right before hr)
    refine (yields_ofLegs hpenalty fun r hr => (hinside r hr).timed).map fun tail htail => ?_
    rintro _ ⟨⟩
    exact ⟨last.trip, ⟨last, after, htail, rfl⟩, htail ▸ hinside⟩

/-- A ride that is left at a position of its trip may be put in front of a tail. -/
theorem Placed.yields_prepend (h : tail.Placed trip) (hpenalty : Pricing.Safe pricing.penalty)
    (hride : ride.Inside) (hsource : connection.source.position < ride.trip.arrivals.size)
    (htarget : tail.canBoardAt connection.target.position = true) :
    Yields (tail.prepend pricing ride connection) fun tail' => tail'.Placed ride.trip := by
  obtain ⟨head, rest, hlegs, -⟩ := h.head
  have hinside : ∀ r, .ride r ∈ prependLegs ride connection tail.legs → r.Inside := by
    intro r hr
    rw [prependLegs, hlegs] at hr
    rcases List.mem_cons.mp hr with hfirst | hr
    · obtain rfl := Leg.ride.inj hfirst
      exact ⟨hride.size_eq, hride.board, hsource⟩
    rcases List.mem_append.mp hr with hwalk | hr
    · cases hconnection : connection.walk <;> simp [hconnection] at hwalk
    rcases List.mem_cons.mp hr with hhead | hr
    · -- the head is boarded before it is left
      obtain rfl := Leg.ride.inj hhead
      have hbefore := h.inside head (hlegs ▸ List.mem_cons_self)
      have hlt : connection.target.position < head.alightPosition := by
        simpa [canBoardAt, head?, hlegs] using htarget
      exact ⟨hbefore.size_eq, hbefore.size_eq ▸ hlt.trans hbefore.alight, hbefore.alight⟩
    · exact h.inside r (hlegs ▸ List.mem_cons_of_mem _ hr)
  refine (yields_ofLegs hpenalty fun r hr => (hinside r hr).timed).mono fun tail' _ htail' => ?_
  exact ⟨⟨_, _, htail', rfl⟩, htail' ▸ hinside⟩

/-- A tail whose head is on the trip of the first ride of an itinerary may take the place of its
rides. -/
theorem Placed.yields_complete {rides : List Ride} (h : tail.Placed ride.trip)
    (hpenalty : Pricing.Safe pricing.penalty) (hlegs : ∀ r, .ride r ∈ whole.legs → r.Inside)
    (hrides : whole.rides = ride :: rides) :
    Yields (tail.complete pricing whole) fun scored => AllTimed scored.itinerary.legs := by
  obtain ⟨head, rest, htail, htrip⟩ := h.head
  have hfirst : ride.Inside := by
    obtain ⟨rest, hwhole⟩ := Itinerary.legs_eq_of_rides hrides
    exact hlegs ride (hwhole ▸ List.mem_append_right _ List.mem_cons_self)
  have htimed : AllTimed ((whole.legs.takeWhile fun leg => !leg.isRide) ++
      boardHead ride.boardPosition ride.boardStop ride.constraint tail.legs) := by
    intro r hr
    rcases List.mem_append.mp hr with hr | hr
    · exact (hlegs r (List.takeWhile_subset _ hr)).timed
    rw [htail] at hr
    rcases List.mem_cons.mp hr with hhead | hr
    · obtain rfl := Leg.ride.inj hhead
      have hbefore := h.inside head (htail ▸ List.mem_cons_self)
      exact Ride.Inside.timed ⟨hbefore.size_eq, htrip ▸ hfirst.board, hbefore.alight⟩
    · exact (h.inside r (htail ▸ List.mem_cons_of_mem _ hr)).timed
  rw [complete, hrides, List.head?_cons]
  refine (Itinerary.yields_new htimed).bind fun it _ ⟨_, _, huntimed⟩ => ?_
  have hit := htimed.of_untimed huntimed
  refine (ScoredItinerary.yields_new hpenalty hit).mono ?_
  rintro scored - rfl
  exact hit

end Tail

/-! ### Itineraries -/

namespace RefinementScene

variable {c : RefinementScene} {pricing : Pricing} {tails : List Tail} {ride : Ride}
  {connections : List Connection} {steps : List (Ride × List Connection)} {it : Itinerary}

/-- The weights of waits for an itinerary know its safe transfer time. -/
theorem safe_penalty (c : RefinementScene) (rides : Nat) : Pricing.Safe (c.penalty rides) := by
  intro penalty hpenalty
  unfold RefinementScene.penalty at hpenalty
  split at hpenalty
  · cases hpenalty
    simp [WaitPenalty.withSafeTime]
  · cases hpenalty

/-- A ride may be put in front of all tails. -/
theorem yields_extend (htails : ∀ tail ∈ tails, ∃ trip, tail.Placed trip)
    (hpenalty : Pricing.Safe pricing.penalty) (hride : ride.Inside)
    (hsource : ∀ c ∈ connections, c.source.position < ride.trip.arrivals.size) :
    Yields (c.extend pricing tails (ride, connections)) fun tails' =>
      ∀ tail ∈ tails', tail.Placed ride.trip := by
  refine (Yields.mapM_mem (R := fun _ found => ∀ tail, found = some tail → tail.Placed ride.trip)
    fun connection hconnection => ?_).bind fun found _ hfound => ?_
  · cases hbest : c.best? Tail.score
        (tails.filter (·.canBoardAt connection.target.position)) with
    | none => simp
    | some tail =>
      obtain ⟨hmem, hboards⟩ := List.mem_filter.mp (mem_of_best? hbest)
      obtain ⟨trip, htail⟩ := htails tail hmem
      refine (htail.yields_prepend hpenalty hride (hsource connection hconnection) hboards).map ?_
      rintro tail' htail' _ ⟨⟩
      exact htail'
  · intro tail htail
    obtain ⟨_, hmem, rfl⟩ := List.mem_filterMap.mp htail
    obtain ⟨_, -, hplaced⟩ := hfound.2 _ hmem
    exact hplaced tail rfl

/-- However many rides are put in front of them. -/
theorem yields_foldrM_extend (htails : ∀ tail ∈ tails, ∃ trip, tail.Placed trip)
    (hpenalty : Pricing.Safe pricing.penalty) (hsteps : ∀ step ∈ steps, step.1.Inside ∧
      ∀ c ∈ step.2, c.source.position < step.1.trip.arrivals.size) :
    Yields (steps.foldrM (fun step tails => c.extend pricing tails step) tails) fun tails' =>
      ∀ tail ∈ tails', ∃ trip, tail.Placed trip := by
  induction steps with
  | nil => exact htails
  | cons step steps ih =>
    rw [List.forall_mem_cons] at hsteps
    rw [List.foldrM_cons]
    refine (ih hsteps.2).bind fun between _ hbetween => ?_
    exact (yields_extend hbetween hpenalty hsteps.1.1 hsteps.1.2).mono
      fun _ _ h tail htail => ⟨_, h tail htail⟩

/-- The choice of transfers of an itinerary whose rides are between positions of their patterns
overflows or gives an itinerary whose rides have times. -/
theorem yields_refine (hnet : c.connections.network.Sound)
    (hplaces : ∀ r, .ride r ∈ it.legs → c.connections.network.Places r) :
    Yields (c.refine it) fun scored => AllTimed scored.itinerary.legs := by
  have hpenalty := c.safe_penalty it.rides.length
  have hinside : ∀ r, .ride r ∈ it.legs → r.Inside := fun r hr => (hplaces r hr).inside
  have hunchanged : Yields (ScoredItinerary.new (c.penalty it.rides.length) it)
      fun scored => AllTimed scored.itinerary.legs := by
    refine (ScoredItinerary.yields_new hpenalty fun r hr => (hinside r hr).timed).mono ?_
    rintro scored - rfl
    exact fun r hr => (hinside r hr).timed
  have hrides : ∀ r ∈ it.rides, c.connections.network.Places r := fun r hr =>
    hplaces r (Itinerary.mem_rides.mp hr)
  refine Yields.ite (fun _ => hunchanged) fun hchoice => ?_
  refine (ConnectionScene.yields_alternatives hnet hrides).bind fun alternatives hfound hsteps => ?_
  refine Yields.ite (fun _ => hunchanged) fun _ => ?_
  refine (Tail.yields_ofItinerary? hpenalty hinside).bind fun last _ hlast => ?_
  cases last with
  | none => exact hunchanged
  | some last =>
    obtain ⟨first, next, rest, hfirst⟩ : ∃ first next rest, it.rides = first :: next :: rest := by
      match hcount : it.rides with
      | [] | [_] => simp [hcount] at hchoice
      | first :: next :: rest => exact ⟨first, next, rest, rfl⟩
    rw [hfirst] at hfound hsteps hrides
    obtain ⟨found, -, hfound⟩ := bind_eq_ok.mp hfound
    obtain ⟨others, -, hfound⟩ := bind_eq_ok.mp hfound
    cases hfound
    have hzip : it.rides.zip (found :: others) = (first, found) :: (next :: rest).zip others := by
      rw [hfirst, List.zip_cons_cons]
    have hsteps : ∀ step ∈ (first, found) :: (next :: rest).zip others, step.1.Inside ∧
        ∀ c ∈ step.2, c.source.position < step.1.trip.arrivals.size := by
      rintro ⟨ride, connections⟩ hstep
      have hstep : (ride, connections) ∈ (first :: next :: rest).zip (found :: others) := hstep
      exact ⟨(hrides ride (List.of_mem_zip hstep).1).inside, hsteps _ hstep⟩
    rw [List.forall_mem_cons] at hsteps
    dsimp only
    rw [hzip, List.foldlM_reverse, List.foldrM_cons]
    -- the last ride put in front is the first of the itinerary
    have hbetween : Yields (((next :: rest).zip others).foldrM
        (fun step tails => c.extend ⟨c.tariff, c.slacks, c.penalty it.rides.length⟩ tails step)
        [last]) fun tails => ∀ tail ∈ tails, ∃ trip, tail.Placed trip :=
      yields_foldrM_extend (List.forall_mem_singleton.mpr (hlast last rfl)) hpenalty hsteps.2
    refine (hbetween.bind fun between _ hbetween =>
      yields_extend hbetween hpenalty hsteps.1.1 hsteps.1.2).bind fun tails _ htails => ?_
    refine (Yields.mapM_mem fun tail htail => (htails tail htail).yields_complete hpenalty
      hinside hfirst).bind fun completed _ hcompleted => ?_
    cases hbest : c.best? ScoredItinerary.score completed with
    | none => exact hunchanged
    | some best =>
      obtain ⟨_, -, htimed⟩ := hcompleted.2 best (mem_of_best? hbest)
      exact htimed

/-- Without a time budget the choice of transfers of several itineraries overflows or has a result.
-/
theorem yields_refineAll {its : List Itinerary} (hnet : c.connections.network.Sound)
    (hplaces : ∀ it ∈ its, ∀ r, .ride r ∈ it.legs → c.connections.network.Places r) :
    Yields (c.refineAll .unlimited its) fun _ => True := by
  have hrefined : Yields (its.mapM c.refine) fun refined =>
      ∀ scored ∈ refined, AllTimed scored.itinerary.legs := by
    refine (Yields.mapM_mem fun it hit => yields_refine hnet (hplaces it hit)).mono
      fun refined _ hrefined scored hscored => ?_
    obtain ⟨_, -, htimed⟩ := hrefined.2 scored hscored
    exact htimed
  rw [refineAll_unlimited]
  refine hrefined.bind fun refined _ hrefined => ?_
  refine (Yields.mapM (R := fun _ _ => True) fun scored hscored => ?_).bind fun _ _ _ => trivial
  exact (Itinerary.yields_toText (hrefined scored hscored)).bind fun _ _ _ => trivial

end RefinementScene

end JourneyPlanner
