import JourneyPlanner.Json.Reading
import JourneyPlanner.Settings.Basic

/-!
# Settings in a file

* `Settings.ofFile`: settings from the content of a file, as a JSON record over the defaults. Of
  two faults the one that comes first in the text counts.
-/

namespace JourneyPlanner.Settings

/-- Why a file gives no settings. -/
inductive FileError where
  /-- there is no such file -/
  | missing
  /-- its content is no record of settings -/
  | unreadable
  /-- it holds a duration beyond a word -/
  | overflow
deriving DecidableEq, Repr

/-- The settings in a file with some content, if there is a file. -/
def ofFile : Option String → Except FileError Settings
  | none => .error .missing
  | some content =>
    let excerpt := Json.excerpt content
    match ofJson excerpt.value with
    | .ok settings => if excerpt.complete then .ok settings else .error .unreadable
    | .error .unexpected => .error .unreadable
    | .error .overflow => .error .overflow

end JourneyPlanner.Settings
