import JourneyPlanner.Network.Trip

/-!
# Endpoints of transfer rules

The places between which a transfer rule holds.

* `Place`: a stop, a station, a stop of a route, or a position of a trip.
* `Endpoint`: one place, or any of several places.
* `Endpoint.anyOf`: the endpoint of any of the given ones, none of which may itself be such a
  choice.
* `Endpoint.designates`: whether an endpoint means a trip at a position.
-/

namespace JourneyPlanner

/-- A place that a transfer rule may name. -/
inductive Place where
  | stop (stop : StopId)
  | station (station : StationId)
  | routeStop (route : RouteId) (stop : StopId)
  | tripStop (trip : TripId) (position : Nat)
deriving DecidableEq, Repr

namespace Place

/-- How specific a place is: a stop of the network least, a position of one trip most. -/
def ranking : Place → Nat
  | .stop _ => 0
  | .station _ => 1
  | .routeStop .. => 2
  | .tripStop .. => 3

/-- The numbers by which a place is named. -/
def numbers : Place → Nat × Nat
  | .stop s => (s, 0)
  | .station s => (s, 0)
  | .routeStop r s => (r, s)
  | .tripStop t position => (t, position)

/-- The order of places: the less specific first, then by the numbers that name them. -/
def precedes (a b : Place) : Bool :=
  a.ranking < b.ranking ||
    (a.ranking == b.ranking &&
      (a.numbers.1 < b.numbers.1 || (a.numbers.1 == b.numbers.1 && a.numbers.2 ≤ b.numbers.2)))

/-- Whether a place means a trip at a position. The stop there and its station are given. -/
def designates (place : Place) (t : Trip) (position : Nat) (s : StopId)
    (inStation : Option StationId) : Bool :=
  match place with
  | .stop named => named == s
  | .station named => inStation == some named
  | .routeStop route named => route == t.route && named == s
  | .tripStop named index => named == t.id && index == position

end Place

/-- One side of a transfer rule. -/
inductive Endpoint where
  /-- a single place -/
  | one (place : Place)
  /-- any of several places, in their order and each once -/
  | anyOf (places : List Place)
deriving DecidableEq, Repr

namespace Endpoint

def places : Endpoint → List Place
  | .one place => [place]
  | .anyOf places => places

def isChoice : Endpoint → Bool
  | .one _ => false
  | .anyOf _ => true

/-- The places in their order, each once. -/
def arrange (places : List Place) : List Place :=
  ((places.mergeSort Place.precedes).foldr fun place rest =>
    if rest.head? = some place then rest else place :: rest) []

/-- Any of the given endpoints, which have to be single places. -/
def choose (members : List Endpoint) : Checked Endpoint :=
  if members.any isChoice then .error .nestedEndpoint
  else .ok (.anyOf (arrange (members.flatMap places)))

/-- How specific an endpoint is. A choice is as specific as its least specific place. -/
def ranking : Endpoint → Nat
  | .one place => place.ranking
  | .anyOf places => (places.map Place.ranking).min?.getD 0

def trip? : Endpoint → Option TripId
  | .one (.tripStop trip _) => some trip
  | _ => none

/-- Whether an endpoint means a trip at a position. -/
def designates (endpoint : Endpoint) (trip : Trip) (position : Nat) (stop : StopId)
    (station : Option StationId) : Bool :=
  endpoint.places.any fun place => place.designates trip position stop station

end Endpoint

end JourneyPlanner
