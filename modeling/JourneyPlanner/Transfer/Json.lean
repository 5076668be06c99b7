import JourneyPlanner.Json.Basic
import JourneyPlanner.Transfer.Endpoint
import JourneyPlanner.Transfer.Constraint

/-!
# Transfer rules in JSON

* `Constraint.toJson`, `Constraint.ofJson?`: a constraint as its name, or as an object with the
  least time of the change.
* `Endpoint.toJson`: an endpoint as an object with the numbers that name it.
-/

namespace JourneyPlanner

def Constraint.toJson : Constraint → Json
  | .regular => .string "regular"
  | .guaranteed => .string "guaranteed"
  | .staySeated => .string "stay_seated"
  | .notAllowed => .string "not_allowed"
  | .minTime duration => .object [("min_time", .int duration)]

def Constraint.ofJson? : Json → Option Constraint
  | .string name =>
    [Constraint.regular, .guaranteed, .staySeated, .notAllowed].find? fun c =>
      c.toJson.string? == some name
  | .object [("min_time", .int duration)] => some (.minTime duration)
  | _ => none

def Place.toJson : Place → Json
  | .stop s => .object [("stop", .ofNat s)]
  | .station s => .object [("station", .ofNat s)]
  | .routeStop r s => .object [("route", .ofNat r), ("stop", .ofNat s)]
  | .tripStop t position => .object [("trip", .ofNat t), ("position", .ofNat position)]

def Endpoint.toJson : Endpoint → Json
  | .one place => place.toJson
  | .anyOf places => .object [("any", .array (places.map Place.toJson))]

end JourneyPlanner
