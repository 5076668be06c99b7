import JourneyPlanner.Json.Basic

/-!
# Records in JSON

Structures whose fields have names, each with a default.

* `Field`: the name of a field, and how its value is read and written.
* `readRecord`: a structure from an object, or from a list of its leading fields. Fields that are
  missing keep their default; unknown and repeated ones are refused.
* `writeRecord`: the object of a structure.
-/

namespace JourneyPlanner

/-- Why a value cannot be read. -/
inductive ReadError where
  /-- the value has not the form expected -/
  | unexpected
  /-- the value stands for a number beyond its width -/
  | overflow
deriving DecidableEq, Repr

/-- What has been read, provided that it has the form expected. -/
def ReadError.ofOption {α : Type} : Option α → Except ReadError α
  | some value => .ok value
  | none => .error .unexpected

namespace Json

/-- A field of the structures `ρ`. -/
structure Field (ρ : Type) where
  name : String
  /-- the structure with the field read from a value -/
  read : Json → ρ → Except ReadError ρ
  write : ρ → Json

variable {ρ : Type}

/-- A structure with fields read by name. The names in `known` have been read already. -/
def readFields (fields : List (Field ρ)) (known : List String) (record : ρ) :
    List (String × Json) → Except ReadError ρ
  | [] => .ok record
  | (name, value) :: rest =>
    match fields.find? (·.name == name) with
    | none => .error .unexpected
    | some field =>
      if known.contains name then .error .unexpected
      else do readFields fields (name :: known) (← field.read value record) rest

/-- A structure with leading fields read from the elements of a list. -/
def readElements (record : ρ) : List (Field ρ) → List Json → Except ReadError ρ
  | _, [] => .ok record
  | [], _ :: _ => .error .unexpected
  | field :: fields, value :: rest => do
    readElements (← field.read value record) fields rest

/-- A structure read from an object or a list, over its default. -/
def readRecord (fields : List (Field ρ)) (default : ρ) : Json → Except ReadError ρ
  | .object members => readFields fields [] default members
  | .array elements => readElements default fields elements
  | _ => .error .unexpected

def writeRecord (fields : List (Field ρ)) (record : ρ) : Json :=
  .object (fields.map fun field => (field.name, field.write record))

def readBounded (least greatest : Int) (value : Json) : Except ReadError Int :=
  ReadError.ofOption do
    let x ← value.int?
    if least ≤ x ∧ x ≤ greatest then some x else none

/-- A name given as a text, or as the only field of an object whose value is `null`. -/
def name? : Json → Option String
  | .string name => some name
  | .object [(name, .null)] => some name
  | _ => none

end Json

end JourneyPlanner
