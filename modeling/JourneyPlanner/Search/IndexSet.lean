/-!
# Sets of indexes

Sets of numbers below a bound, listed in increasing order.
-/

namespace JourneyPlanner

/-- A set of numbers below the size of the table that marks its members. -/
structure IndexSet where
  marks : Array Bool
deriving DecidableEq, Repr

namespace IndexSet

def empty (bound : Nat) : IndexSet := ⟨Array.replicate bound false⟩

/-- The set with a number, which is left out when it is not below the bound. -/
def insert (s : IndexSet) (i : Nat) : IndexSet := ⟨s.marks.setIfInBounds i true⟩

def contains (s : IndexSet) (i : Nat) : Bool := s.marks.getD i false

/-- The members in increasing order. -/
def toList (s : IndexSet) : List Nat := (List.range s.marks.size).filter s.contains

def isEmpty (s : IndexSet) : Bool := s.toList.isEmpty

def clear (s : IndexSet) : IndexSet := empty s.marks.size

theorem mem_toList {s : IndexSet} {i : Nat} : i ∈ s.toList ↔ s.contains i = true := by
  simp only [toList, List.mem_filter, List.mem_range, and_iff_right_iff_imp]
  intro h
  simp only [contains, Array.getD_eq_getD_getElem?] at h
  rcases Nat.lt_or_ge i s.marks.size with lt | ge
  · exact lt
  · rw [Array.getElem?_eq_none ge] at h
    simp at h

end IndexSet

end JourneyPlanner
