import JourneyPlanner.Json.Record
import JourneyPlanner.Tariff

/-!
# Cost options in JSON

* `CostOptions.ofJson`, `CostOptions.toJson`: the options as a record.
-/

namespace JourneyPlanner.CostOptions

def secondsField (name : String) (get : CostOptions → Int)
    (set : Int → CostOptions → CostOptions) : Json.Field CostOptions where
  name
  read value options := do
    return set (← Json.readBounded leastWord greatestWord value) options
  write options := .int (get options)

def factorField (name : String) (get : CostOptions → Float)
    (set : Float → CostOptions → CostOptions) : Json.Field CostOptions where
  name
  read value options := do return set (← ReadError.ofOption value.float?) options
  write options := .float (get options)

/-- The factors of riding, by reluctance. -/
def transitField : Json.Field CostOptions where
  name := "transit_reluctance"
  read value options := do
    let transit ← ReadError.ofOption do (← value.array?).mapM Json.float?
    return { options with transit }
  write options := .array (options.transit.map .float)

/-- The costs of stops, which may be left out. -/
def stopsField : Json.Field CostOptions where
  name := "stop_costs"
  read value options := do
    match value with
    | .null => return { options with stops := none }
    | _ =>
      let elements ← ReadError.ofOption value.array?
      let stops ← elements.mapM (Json.readBounded leastWord greatestWord)
      return { options with stops := some stops }
  write options := Json.ofOption (fun stops => .array (stops.map .int)) options.stops

def fields : List (Json.Field CostOptions) := [
  secondsField "board_cost" (·.board) fun board options => { options with board },
  secondsField "transfer_cost" (·.transfer) fun transfer options => { options with transfer },
  factorField "wait_reluctance" (·.wait) fun wait options => { options with wait },
  factorField "walk_reluctance" (·.walk) fun walk options => { options with walk },
  transitField,
  stopsField]

/-- Cost options read over the defaults. -/
def ofJson (value : Json) : Except ReadError CostOptions := Json.readRecord fields {} value

def toJson (options : CostOptions) : Json := Json.writeRecord fields options

end JourneyPlanner.CostOptions
