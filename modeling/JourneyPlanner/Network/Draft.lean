import JourneyPlanner.Calendar.Reading
import JourneyPlanner.Clock.Reading
import JourneyPlanner.Network.Basic

/-!
# Drafts of networks

A network is declared piece by piece, with names for stops, routes and trips, and then built.

* `Draft`: what has been declared so far, with one operation per kind of declaration.
* `DraftError`: what may be wrong with a declaration.
* `Draft.build`: the network of a draft. Trips of one route with the same stops and restrictions
  share a pattern, unless one would overtake another.
-/

namespace JourneyPlanner

/-- What is wrong with the declaration of a network. -/
inductive DraftError where
  | badTime (text : String) (error : ClockError)
  | duplicateTrip (trip : String)
  | departsBeforeArrival (trip stop : String)
  | nothingToRestrict
  | tooShort (trip : String)
  | unknownCalendar (calendar trip : String)
  | unknownStop (stop : String)
  | unknownStation (station : String)
  | unknownRoute (route : String)
  | unknownTrip (trip : String)
  | badEndpoint (fault : Fault)
deriving DecidableEq, Repr

def DraftError.message : DraftError → String
  | .badTime text error => "invalid time " ++ text ++ " : " ++ error.message
  | .duplicateTrip trip => "trip " ++ trip ++ " already exists"
  | .departsBeforeArrival trip stop =>
    "trip " ++ trip ++ " departs from " ++ stop ++ " before arriving"
  | .nothingToRestrict => "no stop time to update"
  | .tooShort trip => "trip " ++ trip ++ " must have at least 2 stop times"
  | .unknownCalendar calendar trip => "unknown calendar " ++ calendar ++ " for trip " ++ trip
  | .unknownStop stop => "unknown stop " ++ stop
  | .unknownStation station => "unknown station " ++ station
  | .unknownRoute route => "unknown route " ++ route
  | .unknownTrip trip => "unknown trip " ++ trip
  | .badEndpoint fault => "invalid composite transfer point : " ++ fault.message

/-- A time as it is declared: a number of seconds, or a text. -/
inductive TimeEntry where
  | seconds (time : Time)
  | text (text : String)
deriving DecidableEq, Repr

/-- The time that a declaration means. -/
def TimeEntry.resolve : TimeEntry → Except DraftError Time
  | .seconds time => .ok time
  | .text content => (Time.parse content).mapError (.badTime content)

/-- A call of a trip at a stop. -/
structure Call where
  stop : String
  arrival : Time
  departure : Time
  flow : Flow
deriving DecidableEq, Repr

/-- One line of the declaration of a trip. -/
inductive TripLine where
  /-- a call with its arrival and its departure -/
  | call (stop : String) (arrival departure : TimeEntry)
  /-- nobody boards at the call before -/
  | noBoarding
  /-- nobody alights at the call before -/
  | noAlighting
deriving DecidableEq, Repr

structure TripDraft where
  name : String
  route : RouteId
  calendar : String
  calls : List Call
deriving DecidableEq, Repr

/-- An endpoint of a rule, by names. -/
inductive EndpointName where
  | stop (stop : String)
  | station (station : String)
  | routeStop (route stop : String)
  | tripStop (trip : String) (position : Nat)
  | anyOf (members : List EndpointName)

/-- A rule, by names. -/
structure RuleDraft where
  source : EndpointName
  target : EndpointName
  constraint : Constraint

structure WalkDraft where
  source : String
  target : String
  duration : Span
deriving DecidableEq, Repr

/-- What has been declared of a network. -/
structure Draft where
  calendars : List Service
  stations : List (String × List String) := []
  routes : Array Route := #[]
  trips : Array TripDraft := #[]
  walks : List WalkDraft := []
  rules : List RuleDraft := []

namespace Draft

/-- The calendar of trips that name none. -/
def defaultCalendar : String := "default_service"

/-- The only day of the default calendar when none is given. -/
def defaultDate : Date := ⟨2020, 1, 1⟩

/-- The draft without declarations. Trips run on `date` unless they name a calendar. -/
def new (date : Date) : Draft :=
  { calendars := [⟨defaultCalendar, [date]⟩] }

/-- Declare the days of a calendar, in place of those declared before. -/
def calendar (draft : Draft) (name : String) (dates : List Date) : Draft :=
  let known := draft.calendars.any (·.name == name)
  { draft with
    calendars :=
      if known then
        draft.calendars.map fun service =>
          if service.name = name then ⟨name, dates⟩ else service
      else draft.calendars ++ [⟨name, dates⟩] }

/-- Group stops in a station. -/
def station (draft : Draft) (name : String) (stops : List String) : Draft :=
  { draft with stations := draft.stations ++ [(name, stops)] }

/-- The number of a route, which is declared if it is not known yet. -/
def route (draft : Draft) (name : String) : Draft × RouteId :=
  match draft.routes.findIdx? (·.name == name) with
  | some route => (draft, route)
  | none => ({ draft with routes := draft.routes.push ⟨name, 0⟩ }, draft.routes.size)

def reluctance (draft : Draft) (route : RouteId) (reluctance : Nat) : Draft :=
  { draft with routes := draft.routes.modify route fun r => { r with reluctance } }

/-- The calls of a trip after one more line of its declaration. -/
def addLine (trip : String) (calls : List Call) : TripLine → Except DraftError (List Call)
  | .call stop arrival departure => do
    let arrival ← arrival.resolve
    let departure ← departure.resolve
    if departure < arrival then throw (.departsBeforeArrival trip stop)
    return calls ++ [⟨stop, arrival, departure, .boardAndAlight⟩]
  | .noBoarding => restrict Flow.withoutBoarding
  | .noAlighting => restrict Flow.withoutAlighting
where
  /-- The calls with the flow of the last one changed. -/
  restrict (change : Flow → Flow) : Except DraftError (List Call) :=
    match calls.getLast? with
    | none => .error .nothingToRestrict
    | some last => .ok (calls.dropLast ++ [{ last with flow := change last.flow }])

/-- Declare a trip of a route, line by line. -/
def trip (draft : Draft) (route : RouteId) (name : String) (calendar : Option String)
    (lines : List TripLine) : Except DraftError Draft := do
  if draft.trips.any (·.name == name) then throw (.duplicateTrip name)
  let calls ← lines.foldlM (addLine name) []
  return { draft with
    trips := draft.trips.push ⟨name, route, calendar.getD defaultCalendar, calls⟩ }

def walk (draft : Draft) (source target : String) (duration : TimeEntry) :
    Except DraftError Draft := do
  return { draft with walks := draft.walks ++ [⟨source, target, ← duration.resolve⟩] }

def rule (draft : Draft) (source target : EndpointName) (constraint : Constraint) : Draft :=
  { draft with rules := draft.rules ++ [⟨source, target, constraint⟩] }

/-! ### Building -/

/-- The names of all stops, in the order of their first mention: in stations, in trips and in
walks. -/
def stopNames (draft : Draft) : Array String :=
  let mentions :=
    draft.stations.flatMap (·.2) ++
    draft.trips.toList.flatMap (fun trip => trip.calls.map (·.stop)) ++
    draft.walks.flatMap fun walk => [walk.source, walk.target]
  mentions.foldl (fun names name => if names.contains name then names else names.push name) #[]

/-- The number of a stop among names that hold it. -/
def stopNumber (names : Array String) (name : String) : StopId :=
  (names.findIdx? (· == name)).getD names.size

/-- The stops, each in the station that mentions it last. -/
def stopTable (draft : Draft) (names : Array String) : Array Stop :=
  names.map fun name =>
    let stations := draft.stations.zipIdx.filter fun ((_, stops), _) => stops.contains name
    ⟨name, stations.getLast?.map (·.2)⟩

/-- The schedule of a declared trip, not yet placed in a timetable. -/
def schedule (routes : Array Route) (number : TripId) (trip : TripDraft) (service : ServiceId) :
    Trip :=
  { id := number
    name := trip.name
    pattern := 0
    route := trip.route
    service
    rank := 0
    reluctance := (routes[trip.route]?.map (·.reluctance)).getD 0
    arrivals := (trip.calls.map (·.arrival)).toArray
    departures := (trip.calls.map (·.departure)).toArray }

/-- Patterns with their timetables, while trips are placed. -/
structure Placement where
  patterns : Array Pattern
  timetables : Array Timetable

/-- Whether a trip of a route with these stops and flows belongs to a pattern. -/
def belongs (route : RouteId) (stops : Array StopId) (flows : Array Flow) (p : Pattern) :
    Bool :=
  p.route == route && p.stops == stops && p.flows == flows

/-- Place a trip in the first timetable of its kind that it fits, or in a new one. -/
def place (placement : Placement) (stops : Array StopId) (flows : Array Flow) (trip : Trip) :
    Placement :=
  let fitting := (placement.patterns.zip placement.timetables).toList.findSome? fun (p, t) =>
    if belongs trip.route stops flows p then
      (t.insert? trip).map fun inserted => (p.id, inserted)
    else none
  match fitting with
  | some (pattern, timetable) =>
    { placement with timetables := placement.timetables.setIfInBounds pattern timetable }
  | none =>
    let id := placement.patterns.size
    let opened := Timetable.empty id stops.size
    { patterns := placement.patterns.push ⟨id, trip.route, stops, flows⟩
      timetables := placement.timetables.push ((opened.insert? trip).getD opened) }

def placeDraft (draft : Draft) (names : Array String) (placement : Placement)
    (entry : TripDraft × TripId) : Except DraftError Placement := do
  let (trip, number) := entry
  if trip.calls.length < 2 then throw (.tooShort trip.name)
  match draft.calendars.findIdx? (·.name == trip.calendar) with
  | none => throw (.unknownCalendar trip.calendar trip.name)
  | some service =>
    let stops := (trip.calls.map fun call => stopNumber names call.stop).toArray
    let flows := (trip.calls.map (·.flow)).toArray
    return place placement stops flows (schedule draft.routes number trip service)

/-- For every stop, the patterns through it with its positions in them. -/
def patternsByStop (stopCount : Nat) (patterns : Array Pattern) :
    Array (List (PatternId × Nat)) :=
  (Array.range stopCount).map fun stop =>
    patterns.toList.flatMap fun p =>
      (p.stops.toList.zipIdx.filter fun (other, _) => other == stop).map fun (_, position) =>
        (p.id, position)

/-- For every stop, the walks whose end given by `side` is there. -/
def walksByStop (stopCount : Nat) (walks : List Walk) (side : Walk → StopId) :
    Array (List Walk) :=
  (Array.range stopCount).map fun stop => walks.filter fun walk => side walk == stop

/-- The value of a name, which has to be known. -/
def known {α : Type} (error : DraftError) : Option α → Except DraftError α
  | some value => .ok value
  | none => .error error

mutual

/-- The endpoint that names stand for. -/
def resolve (net : Network) : EndpointName → Except DraftError Endpoint
  | .stop stop => do
    return .one (.stop (← known (.unknownStop stop) (net.stop? stop)))
  | .station station => do
    return .one (.station (← known (.unknownStation station) (net.station? station)))
  | .routeStop route stop => do
    let r ← known (.unknownRoute route) (net.route? route)
    return .one (.routeStop r (← known (.unknownStop stop) (net.stop? stop)))
  | .tripStop trip position => do
    return .one (.tripStop (← known (.unknownTrip trip) (net.trip? trip)).id position)
  | .anyOf members => do
    (Endpoint.choose (← resolveAll net members)).mapError .badEndpoint

/-- The endpoints that the members of an endpoint stand for. -/
def resolveAll (net : Network) : List EndpointName → Except DraftError (List Endpoint)
  | [] => return []
  | member :: rest => do
    let endpoint ← resolve net member
    return endpoint :: (← resolveAll net rest)

end

/-- The rule that names stand for. -/
def resolveRule (net : Network) (rule : RuleDraft) : Except DraftError Rule := do
  let source ← resolve net rule.source
  let target ← resolve net rule.target
  return ⟨source, target, rule.constraint⟩

/-- The network of a draft, without its rules. -/
def buildWithoutRules (draft : Draft) : Except DraftError Network := do
  let names := draft.stopNames
  let placement ← draft.trips.toList.zipIdx.foldlM (draft.placeDraft names) ⟨#[], #[]⟩
  let walks := draft.walks.map fun walk =>
    (⟨stopNumber names walk.source, stopNumber names walk.target, walk.duration⟩ : Walk)
  return {
    stops := draft.stopTable names
    stations := (draft.stations.map fun (name, stops) =>
      (⟨name, stops.map (stopNumber names)⟩ : Station)).toArray
    routes := draft.routes
    patterns := placement.patterns
    timetables := placement.timetables.mapIdx fun pattern t => t.number pattern
    patternsAt := patternsByStop names.size placement.patterns
    walksFrom := walksByStop names.size walks Walk.source
    walksTo := walksByStop names.size walks Walk.target
    services := draft.calendars.toArray
    rules := none }

/-- The network of a draft. The first wrong declaration ends the building: first those of trips,
then those of rules. -/
def build (draft : Draft) : Except DraftError Network := do
  let net ← draft.buildWithoutRules
  if draft.rules.isEmpty then return net
  let rules ← draft.rules.mapM (resolveRule net)
  let stations := net.stops.map (·.station)
  return { net with rules := some (RuleIndex.build stations net.patterns net.timetables rules) }

end Draft

end JourneyPlanner
