import JourneyPlanner.Calendar.Date
import JourneyPlanner.Transfer.RuleIndex

/-!
# Networks

Everything that a search knows about the public transport: stops grouped in stations, patterns
with their timetables, walks between stops, the days on which services run, and transfer rules.
-/

namespace JourneyPlanner

/-- A stop, and the station it belongs to. -/
structure Stop where
  name : String
  station : Option StationId
deriving DecidableEq, Repr

/-- A group of stops. -/
structure Station where
  name : String
  stops : List StopId
deriving DecidableEq, Repr

/-- A route, and the transit reluctance that applies to its trips. -/
structure Route where
  name : String
  reluctance : Nat
deriving DecidableEq, Repr

/-- The days on which the trips of a service run. -/
structure Service where
  name : String
  dates : List Date
deriving DecidableEq, Repr

/-- A public transport network. -/
structure Network where
  stops : Array Stop
  stations : Array Station
  routes : Array Route
  patterns : Array Pattern
  /-- the timetable of every pattern -/
  timetables : Array Timetable
  /-- for every stop, the patterns through it with the position of the stop in each -/
  patternsAt : Array (List (PatternId × Nat))
  /-- for every stop, the walks that leave it -/
  walksFrom : Array (List Walk)
  /-- for every stop, the walks that reach it -/
  walksTo : Array (List Walk)
  services : Array Service
  /-- the transfer rules, if there are any -/
  rules : Option RuleIndex
deriving DecidableEq, Repr

namespace Network

def stopCount (net : Network) : Nat := net.stops.size

def patternCount (net : Network) : Nat := net.patterns.size

def tripCount (net : Network) : Nat :=
  net.timetables.foldl (fun count t => count + t.size) 0

/-- The name of a stop, which has to exist. -/
def stopName (net : Network) (stop : StopId) : Checked String :=
  (fetch net.stops stop).map (·.name)

def routeName (net : Network) (route : RouteId) : Checked String :=
  (fetch net.routes route).map (·.name)

def stop? (net : Network) (name : String) : Option StopId :=
  net.stops.findIdx? (·.name == name)

def station? (net : Network) (name : String) : Option StationId :=
  net.stations.findIdx? (·.name == name)

def route? (net : Network) (name : String) : Option RouteId :=
  net.routes.findIdx? (·.name == name)

def trip? (net : Network) (name : String) : Option Trip :=
  net.timetables.toList.findSome? fun t => t.trips.find? (·.name == name)

/-- The pattern with that number, which has to exist. -/
def pattern (net : Network) (pattern : PatternId) : Checked Pattern :=
  fetch net.patterns pattern

/-- The timetable of a pattern, which has to exist. -/
def timetable (net : Network) (pattern : PatternId) : Checked Timetable :=
  fetch net.timetables pattern

/-- The walks that a search may take from a stop, which has to exist. -/
def walks (net : Network) (d : Direction) (stop : StopId) : Checked (List Walk) :=
  match d with
  | .forward => fetch net.walksFrom stop
  | .reverse => fetch net.walksTo stop

/-- The services that run on a date, in order. -/
def servicesOn (net : Network) (date : Date) : List ServiceId :=
  (net.services.toList.zipIdx.filter fun (service, _) => service.dates.contains date).map (·.2)

end Network

end JourneyPlanner
