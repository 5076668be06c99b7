import JourneyPlanner.Itinerary.Journey
import JourneyPlanner.Json.Basic

/-!
# Journeys in JSON

* `Journey.toJson`: a journey as an object, each section under the name of its kind.
-/

namespace JourneyPlanner

/-- The start and the end of a section. -/
def momentFields (startMoment endMoment : Moment) : List (String × Json) := [
  ("from_datetime", .string startMoment.toText),
  ("to_datetime", .string endMoment.toText)]

def VehicleSection.toJson (ride : VehicleSection) : Json :=
  .object (momentFields ride.startMoment ride.endMoment ++ [
    ("from_stop", .string ride.source),
    ("to_stop", .string ride.target),
    ("route", .string ride.route),
    ("trip_id", .string ride.trip),
    ("from_position", Json.ofNat ride.boardPosition),
    ("to_position", Json.ofNat ride.alightPosition),
    ("constraint", .string ride.constraint)])

def WalkSection.toJson (walk : WalkSection) : Json :=
  .object (momentFields walk.startMoment walk.endMoment ++ [
    ("from_stop", .string walk.source),
    ("to_stop", .string walk.target)])

def WaitSection.toJson (wait : WaitSection) : Json :=
  .object (momentFields wait.startMoment wait.endMoment ++ [("stop", .string wait.stop)])

/-- A section as an object whose only field is named for its kind. -/
def Section.toJson : Section → Json
  | .vehicle part => .object [("Vehicle", part.toJson)]
  | .walk part => .object [("Transfer", part.toJson)]
  | .wait part => .object [("Waiting", part.toJson)]

def Journey.toJson (j : Journey) : Json := .object [
  ("departure_datetime", .string j.departure.toText),
  ("arrival_datetime", .string j.arrival.toText),
  ("departure_fallback_duration", .int j.accessDuration),
  ("arrival_fallback_duration", .int j.egressDuration),
  ("sections", .array (j.sections.map Section.toJson)),
  ("nb_of_transfers", Json.ofNat j.transfers),
  ("generalized_cost", .int j.cost)]

end JourneyPlanner
