/-!
# Fronts

Sets of alternatives none of which is at least as good as another one on every criterion.

A front keeps its alternatives in the order in which they were added. Whether an alternative is
at least as good as another is decided by a function on their criteria, which each operation
takes: it may depend on the search, for example on its direction.

* `Front.add`: add an alternative unless one of the front is at least as good, and drop those
  that it is at least as good as.
* `Front.covers`: whether some alternative of the front is at least as good as given criteria.
* `Front.merge`: add the alternatives of another front.
* `Front.drain`, `Front.clear`: take all alternatives out of a front.
-/

namespace JourneyPlanner

/-- A comparison of criteria: whether the first are at least as good as the second. -/
abbrev Dominance (κ : Type) := κ → κ → Bool

/-- Alternatives with their criteria, in the order in which they were added. -/
structure Front (α κ : Type) where
  entries : List (α × κ)
deriving Repr

namespace Front

variable {α κ : Type}

def empty : Front α κ := ⟨[]⟩

instance : Inhabited (Front α κ) := ⟨empty⟩

def isEmpty (front : Front α κ) : Bool := front.entries.isEmpty

def size (front : Front α κ) : Nat := front.entries.length

def elements (front : Front α κ) : List α := front.entries.map (·.1)

/-- Whether some alternative is at least as good as `criteria`. -/
def covers (dominates : Dominance κ) (front : Front α κ) (criteria : κ) : Bool :=
  front.entries.any fun entry => dominates entry.2 criteria

/-- The front with one more alternative, without any comparison. -/
def push (front : Front α κ) (element : α) (criteria : κ) : Front α κ :=
  ⟨front.entries ++ [(element, criteria)]⟩

/-- The front without the alternatives that `criteria` are at least as good as. -/
def prune (dominates : Dominance κ) (front : Front α κ) (criteria : κ) : Front α κ :=
  ⟨front.entries.filter fun entry => !dominates criteria entry.2⟩

/-- The front with an alternative in place of those that it is at least as good as. -/
def replace (dominates : Dominance κ) (front : Front α κ) (element : α) (criteria : κ) :
    Front α κ :=
  (front.prune dominates criteria).push element criteria

/-- The front with an alternative added, unless one of the front is at least as good. -/
def add (dominates : Dominance κ) (front : Front α κ) (element : α) (criteria : κ) :
    Front α κ :=
  if front.covers dominates criteria then front else front.replace dominates element criteria

/-- The front with the alternatives of another one added, in their order. -/
def merge (dominates : Dominance κ) (front other : Front α κ) : Front α κ :=
  other.entries.foldl (fun front entry => front.add dominates entry.1 entry.2) front

/-- The alternatives of a front with their criteria, taken out of it, and what is left. -/
def drain (front : Front α κ) : List (α × κ) × Front α κ := (front.entries, empty)

def clear (_front : Front α κ) : Front α κ := empty

/-- The front that a sequence of additions builds. -/
def ofList (dominates : Dominance κ) (entries : List (α × κ)) : Front α κ :=
  empty.merge dominates ⟨entries⟩

end Front

end JourneyPlanner
