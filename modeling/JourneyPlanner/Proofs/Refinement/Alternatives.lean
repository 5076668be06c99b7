import Mathlib.Data.List.Chain
import JourneyPlanner.Proofs.Refinement.Inside

/-!
# All connections between rides

Which connections the choice of transfers knows of. Between two rides it finds every connection that
can be made from the earliest position at which the first one is boarded, as long as it boards the
second one before this is left in the itinerary. A ride that a connection leaves further on could be
boarded further on, too, but such connections to it are not looked for.

* `ConnectionScene.Connects`: a connection from one trip to another that can be made.
* `ConnectionScene.mem_connections_iff`: the connections from a ride to the next one.
* `ConnectionScene.Possible`: one connection between any two consecutive rides, so that every ride
  is boarded before it is left.
* `alternatives_of_possible`: which of these connections are among the alternatives.
-/

namespace JourneyPlanner

/-- Whether a ride is between positions of the pattern of its trip. -/
instance (net : Network) (r : Ride) : Decidable (net.Places r) :=
  decidable_of_iff (∃ p ∈ net.patterns[r.trip.pattern]?,
      (r.trip.departures.size = p.length ∧ r.trip.arrivals.size = p.length) ∧
        r.boardPosition < p.length ∧ r.alightPosition < p.length) <| by
    constructor
    · rintro ⟨p, hp, ⟨hdepartures, harrivals⟩, hinside⟩
      exact ⟨p, hp, ⟨hdepartures, harrivals⟩, hinside⟩
    · rintro ⟨p, hp, ⟨hdepartures, harrivals⟩, hinside⟩
      exact ⟨p, hp, ⟨hdepartures, harrivals⟩, hinside⟩

/-! ### Connections that can be made -/

namespace Pattern

/-- A trip along a pattern may be left at a call. -/
structure Alights (p : Pattern) (trip : Trip) (call : TripCall) : Prop where
  trip_eq : call.trip = trip
  allowed : p.canAlight call.position = .ok true
  stop : p.stops[call.position]? = some call.stop
  time : trip.arrival call.position = .ok call.time

/-- A trip along a pattern may be boarded at a call. -/
structure Boards (p : Pattern) (trip : Trip) (call : TripCall) : Prop where
  trip_eq : call.trip = trip
  allowed : p.canBoard call.position = .ok true
  stop : p.stops[call.position]? = some call.stop
  time : trip.departure call.position = .ok call.time

section

variable {p : Pattern} {trip : Trip} {call other : TripCall}

theorem Alights.unique (h : p.Alights trip call) (h' : p.Alights trip other)
    (hposition : call.position = other.position) : call = other := by
  obtain ⟨trip, position, stop, time⟩ := call
  obtain ⟨trip', position', stop', time'⟩ := other
  obtain rfl : position = position' := hposition
  obtain rfl : trip = trip' := h.trip_eq.trans h'.trip_eq.symm
  obtain rfl : stop = stop' := Option.some.inj (h.stop.symm.trans h'.stop)
  obtain rfl : time = time' := Except.ok.inj (h.time.symm.trans h'.time)
  rfl

theorem Boards.unique (h : p.Boards trip call) (h' : p.Boards trip other)
    (hposition : call.position = other.position) : call = other := by
  obtain ⟨trip, position, stop, time⟩ := call
  obtain ⟨trip', position', stop', time'⟩ := other
  obtain rfl : position = position' := hposition
  obtain rfl : trip = trip' := h.trip_eq.trans h'.trip_eq.symm
  obtain rfl : stop = stop' := Option.some.inj (h.stop.symm.trans h'.stop)
  obtain rfl : time = time' := Except.ok.inj (h.time.symm.trans h'.time)
  rfl

end

end Pattern

/-- Two stops are the same, or a walk between them was declared. -/
def Network.Reaches (net : Network) (start : StopId) (walk : Option Walk) (stop : StopId) : Prop :=
  match walk with
  | none => start = stop
  | some w => w.source = start ∧ w.target = stop ∧ start ≠ stop ∧ net.HasWalk w

/-- A connection from one trip to another that can be made: the first one may be left and the second
one boarded, the stops are the same or a declared walk joins them, and there is enough time under
what is known about the change. -/
structure ConnectionScene.Connects (s : ConnectionScene) (first second : Trip)
    (connection : Connection) : Prop where
  alights : ∃ p, s.network.patterns[first.pattern]? = some p ∧ p.Alights first connection.source
  boards : ∃ p, s.network.patterns[second.pattern]? = some p ∧ p.Boards second connection.target
  reaches : s.network.Reaches connection.source.stop connection.walk connection.target.stop
  constraint_eq :
    connection.constraint = s.constraintBetween connection.source connection.target
  feasible : s.Feasible connection.source connection.target connection.walkDuration
    connection.constraint

namespace ConnectionScene

variable {s : ConnectionScene} {source : TripCall} {stop : StopId} {walk : Option Walk}
  {p : Pattern} {trip : Trip} {ride next : Ride} {rides rest : List Ride}
  {position boardPosition : Nat} {connection : Connection} {choice found : List Connection}
  {alternatives : List (List Connection)}

/-! ### Connections between two rides -/

/-- What a connection from a call to a trip has to be, once the way to the stop is given. -/
structure Ends (s : ConnectionScene) (source : TripCall) (stop : StopId) (walk : Option Walk)
    (p : Pattern) (trip : Trip) (connection : Connection) : Prop where
  source_eq : connection.source = source
  walk_eq : connection.walk = walk
  stop_eq : connection.target.stop = stop
  boards : p.Boards trip connection.target
  constraint_eq : connection.constraint = s.constraintBetween source connection.target
  feasible : s.Feasible source connection.target connection.walkDuration connection.constraint

theorem Ends.eq_mk (h : s.Ends source stop walk p trip connection) : connection =
    ⟨source, connection.target, walk, s.constraintBetween source connection.target⟩ := by
  rw [← h.constraint_eq, ← h.source_eq, ← h.walk_eq]

theorem Ends.connects {first second : Trip} {q : Pattern}
    (h : s.Ends source stop walk q second connection)
    (hp : s.network.patterns[first.pattern]? = some p) (halights : p.Alights first source)
    (hq : s.network.patterns[second.pattern]? = some q)
    (hreaches : s.network.Reaches source.stop walk stop) : s.Connects first second connection := by
  obtain ⟨rfl, rfl, rfl, hboards, hconstraint, hfeasible⟩ := h
  exact ⟨⟨p, hp, halights⟩, ⟨q, hq, hboards⟩, hreaches, hconstraint, hfeasible⟩

theorem Connects.ends {first second : Trip} {q : Pattern} (h : s.Connects first second connection)
    (hq : s.network.patterns[second.pattern]? = some q) :
    s.Ends connection.source connection.target.stop connection.walk q second connection := by
  obtain ⟨q', hq', hboards⟩ := h.boards
  obtain rfl := Option.some.inj (hq.symm.trans hq')
  exact ⟨rfl, rfl, rfl, hboards, h.constraint_eq, h.feasible⟩

/-- A position is searched for the connection that ends there. -/
theorem connectionAt?_eq_some_iff {result : Option Connection}
    (h : s.connectionAt? source stop walk p trip position = .ok result) :
    result = some connection ↔
      s.Ends source stop walk p trip connection ∧ connection.target.position = position := by
  obtain ⟨stopThere, hstop, h⟩ := bind_eq_ok.mp h
  have hstop : p.stops[position]? = some stopThere := fetch_eq_ok.mp hstop
  dsimp only at h
  split at h
  case isTrue hother =>
    cases h
    apply iff_of_false (by simp)
    rintro ⟨hends, rfl⟩
    refine hother (Option.some.inj (hstop.symm.trans ?_))
    rw [hends.boards.stop, hends.stop_eq]
  case isFalse hsame =>
  obtain rfl := not_not.mp hsame
  obtain ⟨boards, hboards, h⟩ := bind_eq_ok.mp h
  split at h
  case isTrue hrefused =>
    cases h
    apply iff_of_false (by simp)
    rintro ⟨hends, rfl⟩
    obtain rfl := Except.ok.inj (hboards.symm.trans hends.boards.allowed)
    cases hrefused
  case isFalse hallowed =>
  obtain rfl : boards = true := by simpa using hallowed
  obtain ⟨target, htarget, h⟩ := bind_eq_ok.mp h
  obtain ⟨time, htime, htarget⟩ := bind_eq_ok.mp htarget
  cases htarget
  obtain ⟨feasible, hfeasible, h⟩ := bind_eq_ok.mp h
  have hdecides := yields_isFeasible.of_ok hfeasible
  -- the call where the trip would be boarded
  have htarget : p.Boards trip ⟨trip, position, stopThere, time⟩ := ⟨rfl, hboards, hstop, htime⟩
  split at h
  case isTrue hyes =>
    obtain rfl := Except.ok.inj h
    rw [Option.some.injEq]
    constructor
    · rintro rfl
      exact ⟨⟨rfl, rfl, rfl, htarget, rfl, hdecides.mp hyes⟩, rfl⟩
    · rintro ⟨hends, hposition⟩
      rw [hends.eq_mk, hends.boards.unique htarget hposition]
  case isFalse hno =>
    obtain rfl := Except.ok.inj h
    apply iff_of_false (by simp)
    rintro ⟨hends, hposition⟩
    have hfeasible := hends.feasible
    rw [hends.constraint_eq, hends.boards.unique htarget hposition] at hfeasible
    apply hno
    apply hdecides.mpr
    rwa [← hends.walk_eq]

/-- The connections to a ride at a stop are those that end before it is left. -/
theorem mem_connectionsTo_iff (hp : s.network.patterns[next.trip.pattern]? = some p)
    (h : s.connectionsTo source stop walk next = .ok found) :
    connection ∈ found ↔ s.Ends source stop walk p next.trip connection ∧
      connection.target.position < next.alightPosition := by
  obtain ⟨p', hp', h⟩ := bind_eq_ok.mp h
  obtain rfl := Option.some.inj (hp.symm.trans (fetch_eq_ok.mp hp'))
  obtain ⟨results, hresults, h⟩ := bind_eq_ok.mp h
  cases h
  rw [List.mem_filterMap]
  constructor
  · rintro ⟨result, hmem, hresult⟩
    obtain ⟨position, hposition, hfound⟩ := exists_of_mem_mapM hresults hmem
    obtain ⟨hends, rfl⟩ := (connectionAt?_eq_some_iff hfound).mp hresult
    exact ⟨hends, List.mem_range.mp hposition⟩
  · rintro ⟨hends, hbefore⟩
    obtain ⟨result, hmem, hfound⟩ := exists_mem_of_mapM hresults (List.mem_range.mpr hbefore)
    exact ⟨result, hmem, (connectionAt?_eq_some_iff hfound).mpr ⟨hends, rfl⟩⟩

/-- The connections that leave a ride at a position are those that can be made from there. -/
theorem mem_connectionsFrom_iff (hnet : s.network.Sound)
    (hp : s.network.patterns[ride.trip.pattern]? = some p) (hnext : s.network.Places next)
    (h : s.connectionsFrom ride next p position = .ok found) :
    connection ∈ found ↔ s.Connects ride.trip next.trip connection ∧
      connection.source.position = position ∧
      connection.target.position < next.alightPosition := by
  obtain ⟨q, hq, -⟩ := hnext
  obtain ⟨alights, halights, h⟩ := bind_eq_ok.mp h
  split at h
  case isTrue hrefused =>
    cases h
    apply iff_of_false (by simp)
    rintro ⟨hconnects, rfl, -⟩
    obtain ⟨p', hp', hallowed⟩ := hconnects.alights
    obtain rfl := Option.some.inj (hp.symm.trans hp')
    obtain rfl := Except.ok.inj (halights.symm.trans hallowed.allowed)
    cases hrefused
  case isFalse hallowed =>
  obtain rfl : alights = true := by simpa using hallowed
  obtain ⟨stop, hstop, h⟩ := bind_eq_ok.mp h
  have hstop : p.stops[position]? = some stop := fetch_eq_ok.mp hstop
  obtain ⟨source, hsource, h⟩ := bind_eq_ok.mp h
  obtain ⟨time, htime, hsource⟩ := bind_eq_ok.mp hsource
  cases hsource
  obtain ⟨there, hthere, h⟩ := bind_eq_ok.mp h
  obtain ⟨walks, hwalks, h⟩ := bind_eq_ok.mp h
  have hwalks : s.network.walksFrom[stop]? = some walks := fetch_eq_ok.mp hwalks
  obtain ⟨byWalk, hbyWalk, h⟩ := bind_eq_ok.mp h
  cases h
  have hleft : p.Alights ride.trip ⟨ride.trip, position, stop, time⟩ :=
    ⟨rfl, halights, hstop, htime⟩
  rw [List.mem_append, mem_connectionsTo_iff hq hthere]
  constructor
  · rintro (⟨hends, hbefore⟩ | hmem)
    · exact ⟨hends.connects hp hleft hq rfl, congrArg TripCall.position hends.source_eq, hbefore⟩
    · obtain ⟨part, hpart, hmem⟩ := List.mem_flatten.mp hmem
      obtain ⟨walk, hwalk, hfound⟩ := exists_of_mem_mapM hbyWalk hpart
      obtain ⟨hwalk, hother⟩ := List.mem_filter.mp hwalk
      obtain ⟨hdeclared, hfrom⟩ := (hnet.mem_walksFrom hwalks walk).mp hwalk
      obtain ⟨hends, hbefore⟩ := (mem_connectionsTo_iff hq hfound).mp hmem
      have hne : walk.target ≠ stop := by simpa using hother
      exact ⟨hends.connects hp hleft hq ⟨hfrom, rfl, hne.symm, hdeclared⟩,
        congrArg TripCall.position hends.source_eq, hbefore⟩
  · rintro ⟨hconnects, rfl, hbefore⟩
    obtain ⟨p', hp', hleaves⟩ := hconnects.alights
    obtain rfl := Option.some.inj (hp.symm.trans hp')
    have hends := hconnects.ends hq
    have hreaches := hconnects.reaches
    rw [hleaves.unique hleft rfl] at hends hreaches
    cases hwalk : connection.walk with
    | none =>
      rw [hwalk] at hreaches hends
      have hsame : stop = connection.target.stop := hreaches
      rw [← hsame] at hends
      exact .inl ⟨hends, hbefore⟩
    | some walk =>
      rw [hwalk] at hreaches hends
      obtain ⟨hfrom, hto, hne, hdeclared⟩ := hreaches
      have hmem : walk ∈ walks.filter fun walk => walk.target ≠ stop := by
        refine List.mem_filter.mpr ⟨(hnet.mem_walksFrom hwalks walk).mpr ⟨hdeclared, hfrom⟩, ?_⟩
        simpa [hto] using Ne.symm hne
      obtain ⟨part, hpart, hfound⟩ := exists_mem_of_mapM hbyWalk hmem
      rw [← hto] at hends
      exact .inr (List.mem_flatten.mpr
        ⟨part, hpart, (mem_connectionsTo_iff hq hfound).mpr ⟨hends, hbefore⟩⟩)

/-- The connections from a ride to the next one are all that leave the first one after its earliest
boarding and that board the next one before it is left. -/
theorem mem_connections_iff (hnet : s.network.Sound) (hnext : s.network.Places next)
    (h : s.connections ride boardPosition next = .ok found) :
    connection ∈ found ↔ s.Connects ride.trip next.trip connection ∧
      boardPosition < connection.source.position ∧
      connection.target.position < next.alightPosition := by
  obtain ⟨p, hp, h⟩ := bind_eq_ok.mp h
  have hp : s.network.patterns[ride.trip.pattern]? = some p := fetch_eq_ok.mp hp
  obtain ⟨parts, hparts, h⟩ := bind_eq_ok.mp h
  cases h
  rw [List.mem_flatten]
  constructor
  · rintro ⟨part, hpart, hmem⟩
    obtain ⟨position, hposition, hfound⟩ := exists_of_mem_mapM hparts hpart
    obtain ⟨hconnects, rfl, hbefore⟩ :=
      (mem_connectionsFrom_iff hnet hp hnext hfound).mp hmem
    exact ⟨hconnects, (List.mem_range'_1.mp hposition).1, hbefore⟩
  · rintro ⟨hconnects, hafter, hbefore⟩
    obtain ⟨p', hp', hleaves⟩ := hconnects.alights
    obtain rfl := Option.some.inj (hp.symm.trans hp')
    have hinside : connection.source.position < p.length :=
      (Array.getElem?_eq_some_iff.mp hleaves.stop).1
    have hposition : connection.source.position ∈
        List.range' (boardPosition + 1) (p.length - (boardPosition + 1)) := by
      rw [List.mem_range'_1]
      omega
    obtain ⟨part, hpart, hfound⟩ := exists_mem_of_mapM hparts hposition
    exact ⟨part, hpart,
      (mem_connectionsFrom_iff hnet hp hnext hfound).mpr ⟨hconnects, rfl, hbefore⟩⟩

/-! ### Connections along an itinerary -/

/-- The alternatives from a ride on are connections that can be made, after its boarding, and that
board their ride before it is left. -/
theorem forall₂_connects (hnet : s.network.Sound) (hplaces : ∀ r ∈ rest, s.network.Places r)
    (h : s.alternativesFrom boardPosition ride rest = .ok alternatives) :
    List.Forall₂ (fun pair found => ∀ connection ∈ found,
        s.Connects pair.1.trip pair.2.trip connection ∧
          connection.target.position < pair.2.alightPosition)
      ((ride :: rest).zip rest) alternatives ∧
    ∀ found ∈ alternatives.head?, ∀ connection ∈ found,
      boardPosition < connection.source.position := by
  induction rest generalizing boardPosition ride alternatives with
  | nil =>
    cases h
    exact ⟨.nil, by simp⟩
  | cons next rest ih =>
    rw [List.forall_mem_cons] at hplaces
    obtain ⟨found, hfound, h⟩ := bind_eq_ok.mp h
    obtain ⟨others, hothers, h⟩ := bind_eq_ok.mp h
    cases h
    constructor
    · refine .cons ?_ (ih hplaces.2 hothers).1
      intro connection hc
      obtain ⟨hconnects, -, hbefore⟩ := (mem_connections_iff hnet hplaces.1 hfound).mp hc
      exact ⟨hconnects, hbefore⟩
    · rintro _ ⟨⟩ connection hc
      exact ((mem_connections_iff hnet hplaces.1 hfound).mp hc).2.1

/-- One connection between any two consecutive rides, each of which can be made. The first ride is
left after it is boarded, and so is each ride between, by the connections before and after it. -/
structure Possible (s : ConnectionScene) (rides : List Ride) (choice : List Connection) : Prop where
  connects : List.Forall₂ (fun pair connection => s.Connects pair.1.trip pair.2.trip connection)
    (rides.zip rides.tail) choice
  inOrder : choice.IsChain fun connection next => connection.target.position < next.source.position
  starts : ∀ first ∈ rides.head?, ∀ connection ∈ choice.head?,
    first.boardPosition < connection.source.position

/-- The earliest boarding of the next ride, once the connections to it are known, is not after a
connection that boards it, whether this connection is known or not. -/
theorem earliest_le (hmem : connection.target.position < next.alightPosition → connection ∈ found)
    (hfound : ∀ c ∈ found, c.target.position < next.alightPosition)
    (hforward : next.boardPosition < next.alightPosition) :
    (found.map fun c => c.target.position).min?.getD next.boardPosition ≤
      connection.target.position := by
  cases hmin : (found.map fun c => c.target.position).min? with
  | none =>
    obtain rfl : found = [] := by simpa using hmin
    have hlate : ¬connection.target.position < next.alightPosition := fun h => by simpa using hmem h
    rw [Option.getD_none]
    omega
  | some least =>
    obtain ⟨hleast, hall⟩ := List.min?_eq_some_iff.mp hmin
    rw [Option.getD_some]
    by_cases hearly : connection.target.position < next.alightPosition
    · exact hall _ (List.mem_map_of_mem (hmem hearly))
    · obtain ⟨c, hc, rfl⟩ := List.mem_map.mp hleast
      have := hfound c hc
      omega

/-- Of possible connections from a ride on, the alternatives hold those that board their ride before
it is left in the itinerary. -/
theorem forall₂_of_possible (hnet : s.network.Sound)
    (hplaces : ∀ r ∈ rest, s.network.Places r)
    (hforward : ∀ r ∈ rest, r.boardPosition < r.alightPosition)
    (hconnects : List.Forall₂ (fun pair connection => s.Connects pair.1.trip pair.2.trip connection)
      ((ride :: rest).zip rest) choice)
    (hinOrder : choice.IsChain fun connection next =>
      connection.target.position < next.source.position)
    (hstarts : ∀ connection ∈ choice.head?, boardPosition < connection.source.position)
    (h : s.alternativesFrom boardPosition ride rest = .ok alternatives) :
    List.Forall₂ (fun step found =>
        step.1 ∈ found ↔ step.1.target.position < step.2.alightPosition)
      (choice.zip rest) alternatives := by
  induction rest generalizing boardPosition ride choice alternatives with
  | nil =>
    cases h
    rw [List.zip_nil_right]
    exact .nil
  | cons next rest ih =>
    rw [List.zip_cons_cons] at hconnects
    cases hconnects with
    | @cons _ connection _ choice hconnection hconnects =>
    rw [List.forall_mem_cons] at hplaces hforward
    obtain ⟨found, hfound, h⟩ := bind_eq_ok.mp h
    obtain ⟨others, hothers, h⟩ := bind_eq_ok.mp h
    cases h
    have hstart := hstarts connection rfl
    have hmem : connection ∈ found ↔ connection.target.position < next.alightPosition := by
      rw [mem_connections_iff hnet hplaces.1 hfound]
      exact ⟨fun h => h.2.2, fun h => ⟨hconnection, hstart, h⟩⟩
    have hearliest := earliest_le hmem.mpr
      (fun c hc => ((mem_connections_iff hnet hplaces.1 hfound).mp hc).2.2) hforward.1
    obtain ⟨hnext, hinOrder⟩ := List.isChain_cons.mp hinOrder
    rw [List.zip_cons_cons]
    refine .cons hmem (ih hplaces.2 hforward.2 hconnects hinOrder ?_ hothers)
    intro later hlater
    exact hearliest.trans_lt (hnext later hlater)

theorem Possible.forall₂ (h : s.Possible rides choice) (hnet : s.network.Sound)
    (hplaces : ∀ r ∈ rides, s.network.Places r)
    (hforward : ∀ r ∈ rides, r.boardPosition < r.alightPosition)
    (halternatives : s.alternatives rides = .ok alternatives) :
    List.Forall₂ (fun step found =>
        step.1 ∈ found ↔ step.1.target.position < step.2.alightPosition)
      (choice.zip rides.tail) alternatives := by
  cases rides with
  | nil =>
    cases halternatives
    rw [List.tail_nil, List.zip_nil_right]
    exact .nil
  | cons first rest =>
    rw [List.forall_mem_cons] at hplaces hforward
    exact forall₂_of_possible hnet hplaces.2 hforward.2 h.connects h.inOrder
      (h.starts first rfl) halternatives

end ConnectionScene

/-- Which connections between the rides of an itinerary are known to the choice of transfers. Of any
connections that can be made one after the other, those that board their ride before this is left in
the itinerary are all among the alternatives, and no other is. A connection to a ride between may be
missed in this way, though the connection after it leaves that ride later. -/
theorem alternatives_of_possible {draft : Draft} {net : Network} {request : Request}
    {rides : List Ride} {choice : List Connection} (hbuild : draft.build = .ok net)
    (hplaces : ∀ r ∈ rides, net.Places r)
    (hforward : ∀ r ∈ rides, r.boardPosition < r.alightPosition)
    (hchoice : (ConnectionScene.ofRequest net request).Possible rides choice) :
    Yields ((ConnectionScene.ofRequest net request).alternatives rides) fun alternatives =>
      List.Forall₂ (fun step found =>
          step.1 ∈ found ↔ step.1.target.position < step.2.alightPosition)
        (choice.zip rides.tail) alternatives := by
  have hnet := Draft.build_sound hbuild
  apply (ConnectionScene.yields_alternatives hnet hplaces).mono
  intro alternatives halternatives _
  exact hchoice.forall₂ hnet hplaces hforward halternatives

/-- A red line through A, B and C, a blue line through B, C and D, and a green line through C, D and
E. -/
def threeLines : Draft :=
  { Draft.new Draft.defaultDate with
    routes := #[⟨"red", 0⟩, ⟨"blue", 0⟩, ⟨"green", 0⟩]
    trips := #[
      ⟨"red 1", 0, Draft.defaultCalendar,
        [⟨"A", 36000, 36000, .boardAndAlight⟩, ⟨"B", 36600, 36600, .boardAndAlight⟩,
          ⟨"C", 37800, 37800, .boardAndAlight⟩]⟩,
      ⟨"blue 1", 1, Draft.defaultCalendar,
        [⟨"B", 36900, 36900, .boardAndAlight⟩, ⟨"C", 38400, 38400, .boardAndAlight⟩,
          ⟨"D", 39000, 39000, .boardAndAlight⟩]⟩,
      ⟨"green 1", 2, Draft.defaultCalendar,
        [⟨"C", 39600, 39600, .boardAndAlight⟩, ⟨"D", 40200, 40200, .boardAndAlight⟩,
          ⟨"E", 40800, 40800, .boardAndAlight⟩]⟩] }

def fromAToE : Request :=
  { date := Draft.defaultDate
    direction := .forward
    time := 35000
    access := [⟨0, 0, 0, false⟩]
    egress := [⟨4, 0, 0, false⟩] }

/-- From A to E by all three lines, with a change at B, and another one where the blue line is
left. -/
def leavingBlueAt (net : Network) (position : Nat) : Option (List Ride) := do
  let red ← net.trip? "red 1"
  let blue ← net.trip? "blue 1"
  let green ← net.trip? "green 1"
  some [⟨red, 0, 1, 0, 1, .regular⟩, ⟨blue, 0, position, 1, position + 1, .regular⟩,
    ⟨green, position - 1, 2, position + 1, 4, .regular⟩]

def Connection.positions (connection : Connection) : Nat × Nat :=
  (connection.source.position, connection.target.position)

/-- The positions where the alternatives between some rides start and end. -/
def positionsBetween (net : Network) (rides : List Ride) : Checked (List (List (Nat × Nat))) :=
  (·.map (·.map (·.positions))) <$> (ConnectionScene.ofRequest net fromAToE).alternatives rides

/-- The traveller could change at C and at D. Where the blue line is left at C, the change to it at
C is not among the alternatives, but the change from it at D is. -/
theorem alternatives_of_possible_threeLines : ∃ net rides choice alternatives,
    threeLines.build = .ok net ∧ (∀ r ∈ rides, net.Places r) ∧
    (∀ r ∈ rides, r.boardPosition < r.alightPosition) ∧
    (ConnectionScene.ofRequest net fromAToE).Possible rides choice ∧
    (ConnectionScene.ofRequest net fromAToE).alternatives rides = .ok alternatives ∧
    choice.map (·.positions) = [(2, 1), (2, 1)] ∧
    alternatives.map (·.map (·.positions)) = [[(1, 0)], [(1, 0), (2, 1)]] ∧
    List.Forall₂ (fun step found =>
        step.1 ∈ found ↔ step.1.target.position < step.2.alightPosition)
      (choice.zip rides.tail) alternatives := by
  have hbuilds : threeLines.builds (fun net =>
      decide (∃ rides ∈ leavingBlueAt net 1, (∀ r ∈ rides, net.Places r) ∧
        (∀ r ∈ rides, r.boardPosition < r.alightPosition) ∧
        positionsBetween net rides = .ok [[(1, 0)], [(1, 0), (2, 1)]]) &&
      decide (∃ longer ∈ leavingBlueAt net 2, (∀ r ∈ longer, net.Places r) ∧
        positionsBetween net longer = .ok [[(1, 0), (2, 1)], [(1, 0), (2, 1)]])) = true := by
    decide +kernel
  obtain ⟨net, hbuild, hfacts⟩ := Draft.exists_of_builds hbuilds
  obtain ⟨hrides, hlonger⟩ := Bool.and_eq_true_iff.mp hfacts
  obtain ⟨rides, hrides, hplaces, hforward, hknown⟩ := of_decide_eq_true hrides
  obtain ⟨longer, hlonger, hplaced, hall⟩ := of_decide_eq_true hlonger
  have hnet := Draft.build_sound hbuild
  obtain ⟨red, hred, hrides⟩ := Option.bind_eq_some_iff.mp hrides
  obtain ⟨blue, hblue, hrides⟩ := Option.bind_eq_some_iff.mp hrides
  obtain ⟨green, hgreen, hrides⟩ := Option.bind_eq_some_iff.mp hrides
  cases hrides
  simp only [leavingBlueAt, hred, hblue, hgreen] at hlonger
  cases hlonger
  obtain ⟨alternatives, halternatives, hpositions⟩ := map_eq_ok.mp hknown
  -- both changes can be made: they are found where the blue line is left at D
  obtain ⟨connections, hconnections, hlists⟩ := map_eq_ok.mp hall
  rw [List.forall_mem_cons] at hplaced
  obtain ⟨hmade, -⟩ := ConnectionScene.forall₂_connects hnet hplaced.2 hconnections
  simp only [List.map_eq_cons_iff, List.map_eq_nil_iff] at hlists
  obtain ⟨_, _, rfl, ⟨_, _, rfl, -, atC, _, rfl, hatC, rfl⟩,
    _, _, rfl, ⟨_, _, rfl, -, atD, _, rfl, hatD, rfl⟩, rfl⟩ := hlists
  obtain ⟨hfirst, hmade⟩ := List.forall₂_cons.mp hmade
  obtain ⟨hsecond, -⟩ := List.forall₂_cons.mp hmade
  have hstart : atC.source.position = 2 ∧ atC.target.position = 1 := Prod.mk.inj hatC
  have hnext : atD.source.position = 2 ∧ atD.target.position = 1 := Prod.mk.inj hatD
  have hchoice : (ConnectionScene.ofRequest net fromAToE).Possible
      [⟨red, 0, 1, 0, 1, .regular⟩, ⟨blue, 0, 1, 1, 2, .regular⟩, ⟨green, 0, 2, 2, 4, .regular⟩]
      [atC, atD] := by
    refine ⟨.cons (hfirst atC (by simp)).1 (.cons (hsecond atD (by simp)).1 .nil), ?_, ?_⟩
    · simp [hstart, hnext]
    · simp [hstart]
  refine ⟨net, _, _, alternatives, hbuild, hplaces, hforward, hchoice, halternatives,
    by simp [hatC, hatD], hpositions, ?_⟩
  exact (alternatives_of_possible hbuild hplaces hforward hchoice).of_ok halternatives

end JourneyPlanner
