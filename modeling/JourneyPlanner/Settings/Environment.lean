import JourneyPlanner.Settings.Basic

/-!
# Settings in the environment

Some settings may be overridden by variables of the environment. A variable whose content is no text
or cannot be read leaves the setting as it is.

* `Variable`: the content of a variable.
* `Variable.read`: the value of a variable, with a default.
* `Settings.withEnvironment`: settings with the overrides of an environment.
-/

namespace JourneyPlanner

/-- The content of a variable of the environment. -/
inductive Variable where
  /-- the variable is not set -/
  | unset
  | text (content : String)
  /-- the content is no text -/
  | garbled
deriving DecidableEq, Repr

namespace Variable

def ofBytes (bytes : ByteArray) : Variable :=
  match String.fromUTF8? bytes with
  | some content => .text content
  | none => .garbled

/-- The value read from a variable, or a default when there is none. -/
def read {α : Type} (default : α) (parse : String → Option α) : Variable → α
  | .text content => (parse content).getD default
  | .unset | .garbled => default

end Variable

namespace Settings

/-- The settings that variables override, with the names of these. -/
def overrides : List (String × Setting) := [
  ("RAPTOR_MAX_NB_OF_TRANSFERS", maxTransfersSetting),
  ("RAPTOR_TIMEOUT", timeoutSetting),
  ("RAPTOR_PARALLEL_CHUNKS", chunksSetting),
  ("RAPTOR_OPTIMIZE_TRANSFERS", moveTransfersSetting)]

/-- Settings with one of them overridden by a variable. -/
def override (settings : Settings) (setting : Setting) : Variable → Checked Settings
  | .text content =>
    match setting.ofText content settings with
    | .ok settings => .ok settings
    | .error .unexpected => .ok settings
    | .error .overflow => .error .overflow
  | .unset | .garbled => .ok settings

/-- Settings with the overrides of an environment. -/
def withEnvironment (environment : String → Variable) (settings : Settings) : Checked Settings :=
  overrides.foldlM (fun settings (name, setting) =>
    settings.override setting (environment name)) settings

end Settings

end JourneyPlanner
