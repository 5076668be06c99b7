import JourneyPlanner.Clock.Duration
import JourneyPlanner.Decimal.Reading
import JourneyPlanner.Json.Record
import JourneyPlanner.Request

/-!
# Settings

Everything about a search but its date, its times and its places.

* `Settings`: the values, with their defaults.
* `Settings.all`: the settings by name, each with the way in which its value is read and written.
* `Settings.ofJson`, `Settings.toJson`: settings as a record.
* `Settings.applyTo`: a request with these settings.
-/

namespace JourneyPlanner

structure Settings where
  /-- below 256 -/
  maxTransfers : Nat := 10
  window : Duration := .ofSeconds 1800
  step : Duration := .ofSeconds 60
  boardSlack : Duration := .zero
  alightSlack : Duration := .zero
  transferSlack : Duration := .ofSeconds 60
  boardCost : Duration := .ofSeconds 600
  transferCost : Duration := .zero
  waitFactor : Float := 1
  walkFactor : Float := 2
  transitFactor : Float := 1
  useRules : Bool := true
  definitive : Bool := false
  moveTransfers : Bool := true
  weighWaits : Bool := true
  safeFactor : Float := 5
  backFactor : Float := 1
  perRide : Duration := .ofSeconds 60
  lower : Duration := .ofSeconds 40
  upper : Duration := .ofSeconds 1200
  timeout : Duration := .ofSeconds 30
  /-- below 2 ^ 64 -/
  chunks : Nat := 1

namespace Settings

/-! ### Kinds of values -/

/-- How the values of a type are read and written. -/
structure Kind (α : Type) where
  ofText : String → Except ReadError α
  ofJson : Json → Except ReadError α
  toJson : α → Json

namespace Kind

/-- Whole numbers up to a bound. -/
def count (greatest : Nat) : Kind Nat where
  ofText text := ReadError.ofOption (Text.readNat greatest text.toList)
  ofJson value := do return (← Json.readBounded 0 greatest value).toNat
  toJson := Json.ofNat

/-- A duration written `hh:mm:ss`. -/
def readDuration (text : String) : Except ReadError Duration :=
  (Duration.parse text).mapError fun
    | .malformed _ => .unexpected
    | .overflow => .overflow

/-- Durations. In JSON too they are texts. -/
def duration : Kind Duration where
  ofText := readDuration
  ofJson value := do readDuration (← ReadError.ofOption value.string?)
  toJson d := .string d.toText

def factor : Kind Float where
  ofText text := ReadError.ofOption (Decimal.readFloat text.toList)
  ofJson value := ReadError.ofOption value.float?
  toJson := .float

/-- The truth value of a word. -/
def flagOfText? (text : String) : Option Bool :=
  if text = "true" then some true else if text = "false" then some false else none

/-- Choices between two behaviours. -/
def flag : Kind Bool where
  ofText text := ReadError.ofOption (flagOfText? text)
  ofJson value := ReadError.ofOption value.bool?
  toJson := .bool

end Kind

/-! ### Settings by name -/

/-- A setting: its name, and how its value is read and written. -/
structure Setting where
  name : String
  ofText : String → Settings → Except ReadError Settings
  ofJson : Json → Settings → Except ReadError Settings
  toJson : Settings → Json

/-- The setting whose values are of a kind. -/
def Setting.of {α : Type} (name : String) (kind : Kind α) (get : Settings → α)
    (set : Settings → α → Settings) : Setting where
  name
  ofText text settings := do return set settings (← kind.ofText text)
  ofJson value settings := do return set settings (← kind.ofJson value)
  toJson settings := kind.toJson (get settings)

/-- The limit of transfers. -/
def maxTransfersSetting : Setting :=
  .of "max_nb_of_transfers" (.count 255) maxTransfers fun s maxTransfers => { s with maxTransfers }

/-- The time budget of a search. No time at all stands for no limit. -/
def timeoutSetting : Setting :=
  .of "timeout" .duration timeout fun s timeout => { s with timeout }

/-- The number of parts in which the start times of a search are divided. -/
def chunksSetting : Setting :=
  .of "parallel_chunks" (.count 18446744073709551615) chunks fun s chunks => { s with chunks }

/-- Whether transfers may be moved to other stops. -/
def moveTransfersSetting : Setting :=
  .of "optimize_transfers" .flag moveTransfers fun s moveTransfers => { s with moveTransfers }

/-- All settings, in their order. -/
def all : List Setting := [
  maxTransfersSetting,
  .of "search_window" .duration window fun s window => { s with window },
  .of "iteration_step" .duration step fun s step => { s with step },
  .of "board_slack" .duration boardSlack fun s boardSlack => { s with boardSlack },
  .of "alight_slack" .duration alightSlack fun s alightSlack => { s with alightSlack },
  .of "transfer_slack" .duration transferSlack fun s transferSlack => { s with transferSlack },
  .of "board_cost" .duration boardCost fun s boardCost => { s with boardCost },
  .of "transfer_cost" .duration transferCost fun s transferCost => { s with transferCost },
  .of "wait_reluctance" .factor waitFactor fun s waitFactor => { s with waitFactor },
  .of "walk_reluctance" .factor walkFactor fun s walkFactor => { s with walkFactor },
  .of "transit_reluctance" .factor transitFactor fun s transitFactor => { s with transitFactor },
  .of "enable_transfer_constraints" .flag useRules fun s useRules => { s with useRules },
  .of "minimum_transfer_time_is_definitive" .flag definitive fun s definitive =>
    { s with definitive },
  moveTransfersSetting,
  .of "optimize_transfer_wait_time" .flag weighWaits fun s weighWaits => { s with weighWaits },
  .of "min_safe_wait_time_factor" .factor safeFactor fun s safeFactor => { s with safeFactor },
  .of "back_travel_wait_time_factor" .factor backFactor fun s backFactor => { s with backFactor },
  .of "min_safe_transfer_time_per_leg" .duration perRide fun s perRide => { s with perRide },
  .of "min_safe_transfer_time_lower_bound" .duration lower fun s lower => { s with lower },
  .of "min_safe_transfer_time_upper_bound" .duration upper fun s upper => { s with upper },
  timeoutSetting,
  chunksSetting]

def fields : List (Json.Field Settings) :=
  all.map fun setting => ⟨setting.name, setting.ofJson, setting.toJson⟩

/-- Settings read over the defaults. -/
def ofJson (value : Json) : Except ReadError Settings := Json.readRecord fields {} value

def toJson (settings : Settings) : Json := Json.writeRecord fields settings

/-! ### Requests -/

def slacks (settings : Settings) : Slacks where
  board := settings.boardSlack.toTime
  alight := settings.alightSlack.toTime
  transfer := settings.transferSlack.toTime

/-- The weights of the parts of a journey. Trips of the first reluctance have the factor that is
set, and all others the usual one. -/
def costs (settings : Settings) : CostOptions where
  board := settings.boardCost.toTime
  transfer := settings.transferCost.toTime
  wait := settings.waitFactor
  walk := settings.walkFactor
  transit := [settings.transitFactor]

def refinement (settings : Settings) : RefinementOptions where
  moveTransfers := settings.moveTransfers
  weighWaits := settings.weighWaits
  safeFactor := settings.safeFactor
  backFactor := settings.backFactor
  perRide := settings.perRide.toTime
  lower := settings.lower.toTime
  upper := settings.upper.toTime

/-- The seconds after which a search gives up, if it does. -/
def timeoutSeconds (settings : Settings) : Option Nat :=
  if settings.timeout = .zero then none else some settings.timeout.seconds.toNat

/-- A request with everything set but its date, its time and its places. -/
def applyTo (settings : Settings) (request : Request) : Request :=
  { request with
    maxTransfers := settings.maxTransfers
    window := settings.window.toTime
    step := settings.step.toTime
    slacks := settings.slacks
    costs := settings.costs
    useRules := settings.useRules
    definitive := settings.definitive
    refinement := settings.refinement
    timeout := settings.timeoutSeconds
    chunks := max settings.chunks 1 }

end Settings

end JourneyPlanner
