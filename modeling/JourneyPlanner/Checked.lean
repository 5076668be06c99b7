/-!
# Checked computations

Times, costs and counters have a fixed width, and tables have a fixed size. A number that leaves
its width, or a position outside a table, ends the computation that met it.

* `Fault`: the ways in which a computation of the planner can end without an answer.
* `Checked`: a computation that gives a value or the first fault it met.
* `word`, `unsigned`: a number, provided that it fits a signed or an unsigned 32-bit word.
* `fetch`: an element of a table, provided that the position is inside.
-/

namespace JourneyPlanner

/-- The stages of a search that look at its time budget. -/
inductive Phase where
  | bounds
  | routing
  | refinement
deriving DecidableEq, Repr

def Phase.name : Phase → String
  | .bounds => "heuristics"
  | .routing => "routing"
  | .refinement => "transfer optimization"

/-- Why a computation has no answer. An unreachable place, an empty timetable or a search without
result are answers, not faults. -/
inductive Fault where
  /-- a number left its width -/
  | overflow
  /-- a position outside a table -/
  | outOfBounds
  /-- a wait was priced before the safe transfer time was known -/
  | safeTimeUnset
  /-- an "any of these" endpoint among the members of another one -/
  | nestedEndpoint
  /-- a moment in a year that dates cannot have -/
  | beyondCalendar
  /-- the time budget was spent -/
  | timeout (phase : Phase)
deriving DecidableEq, Repr

/-- A value, or the first fault met while computing it. -/
abbrev Checked := Except Fault

def Fault.message : Fault → String
  | .overflow => "overflow"
  | .outOfBounds => "index out of bounds"
  | .safeTimeUnset =>
    "the minimum safe transfer time must be set before computing optimized wait costs"
  | .nestedEndpoint =>
    "a composite transfer point cannot contain another composite transfer point"
  | .beyondCalendar => "moment beyond the calendar"
  | .timeout phase => "search timed out during " ++ phase.name

/-! ### Words -/

def leastWord : Int := -2147483648

def greatestWord : Int := 2147483647

def IsWord (x : Int) : Prop := leastWord ≤ x ∧ x ≤ greatestWord

instance (x : Int) : Decidable (IsWord x) :=
  inferInstanceAs (Decidable (_ ∧ _))

/-- A number that has to fit a signed 32-bit word. -/
def word (x : Int) : Checked Int :=
  if IsWord x then .ok x else .error .overflow

/-- A number that has to fit an unsigned 32-bit word. -/
def unsigned (x : Nat) : Checked UInt32 :=
  if x < 4294967296 then .ok (UInt32.ofNat x) else .error .overflow

/-- A count that has to fit a byte. -/
def byte (x : Nat) : Checked Nat :=
  if x < 256 then .ok x else .error .overflow

/-- The word with the same lowest 32 bits. -/
def wrapWord (x : Int) : Int := Int.bmod x 4294967296

/-- The word nearest to a number. -/
def clampWord (x : Int) : Int := max leastWord (min x greatestWord)

/-- The size of a number, which the least word has not. -/
def magnitude (x : Int) : Checked Int := word x.natAbs

theorem word_eq_ok {x y : Int} : word x = .ok y ↔ IsWord x ∧ x = y := by
  unfold word
  split <;> simp_all

theorem word_of_isWord {x : Int} (h : IsWord x) : word x = .ok x := by
  simp [word, h]

/-! ### Tables -/

/-- The element of a table at a position that has to be inside. -/
def fetch {α : Type} (table : Array α) (position : Nat) : Checked α :=
  match table[position]? with
  | some element => .ok element
  | none => .error .outOfBounds

theorem fetch_eq_ok {α : Type} {table : Array α} {position : Nat} {element : α} :
    fetch table position = .ok element ↔ table[position]? = some element := by
  unfold fetch
  split <;> simp_all

/-! ### Sequencing -/

theorem bind_eq_ok {ε α β : Type} {x : Except ε α} {f : α → Except ε β} {b : β} :
    (x >>= f) = .ok b ↔ ∃ a, x = .ok a ∧ f a = .ok b := by
  cases x <;> simp [bind, Except.bind]

end JourneyPlanner
