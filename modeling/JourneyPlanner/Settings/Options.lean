import JourneyPlanner.Settings.Basic

/-!
# Settings on a command line

Every setting is an option, written `--name value` or `--name=value`.

* `Settings.readOptions`: the options of a command line, each with its text.
* `Settings.ofArguments`: the settings that the options give. An option without a text keeps its
  default; one that is given twice is refused, once all of its texts have been read.
-/

namespace JourneyPlanner.Settings

/-- An option as it was given: its name, and its text if there is one. -/
structure Given where
  name : String
  text : Option String
deriving DecidableEq, Repr

/-- The characters before the first equals sign, and those after it, leading equals signs left
out. There is no second part without an equals sign. -/
def splitAssignment (cs : List Char) : List Char × Option (List Char) :=
  let name := cs.takeWhile (· ≠ '=')
  let rest := cs.dropWhile (· ≠ '=')
  (name, if rest.isEmpty then none else some (rest.dropWhile (· = '=')))

/-- Whether an argument starts with a hyphen and goes on. -/
def isDashed (argument : String) : Bool :=
  argument.toList.head? = some '-' && argument ≠ "-"

/-- The option that an argument names. All leading hyphens are left out. -/
def option? (argument : String) : Option Given :=
  let (name, text) := splitAssignment (argument.toList.dropWhile (· = '-'))
  let name := String.ofList name
  if all.any (·.name == name) then some ⟨name, text.map String.ofList⟩ else none

/-- The options of a command line. One without an equals sign waits for the next argument, which is
its text unless it is dashed. Two hyphens end the options, and nothing may follow them. -/
def readOptions (waiting : Option String) : List String → Option (List Given)
  | [] => some (withoutText waiting)
  | argument :: rest =>
    if argument = "--" then
      if rest.isEmpty then some (withoutText waiting) else none
    else if ['-', '-'].isPrefixOf argument.toList then do
      let given ← option? argument
      let others ←
        if given.text.isSome then (readOptions none rest).map (given :: ·)
        else readOptions (some given.name) rest
      some (withoutText waiting ++ others)
    else if isDashed argument then none
    else do
      let name ← waiting
      return ⟨name, some argument⟩ :: (← readOptions none rest)
where
  /-- An option that has waited in vain for its text. -/
  withoutText (waiting : Option String) : List Given :=
    waiting.toList.map fun name => ⟨name, none⟩

/-- Settings with one of them read from the options. All of its texts are read, in their order,
before it is refused because it was given more than once. -/
def withOption (options : List Given) (settings : Settings) (setting : Setting) :
    Except ReadError Settings := do
  let given := options.filter (·.name == setting.name)
  let readText (_ : Settings) (text : String) := setting.ofText text settings
  let settings ← (given.filterMap (·.text)).foldlM readText settings
  if given.length ≤ 1 then return settings else throw .unexpected

/-- The settings that the arguments of a command line give, over the defaults. -/
def ofArguments (arguments : List String) : Except ReadError Settings := do
  let options ← ReadError.ofOption (readOptions none arguments)
  all.foldlM (withOption options) {}

end JourneyPlanner.Settings
