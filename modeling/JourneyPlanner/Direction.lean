import JourneyPlanner.Clock.Time

/-!
# Search directions

A search that departs after a time follows the clock; one that arrives before a time goes back
from the destination, boarding trips where the traveller leaves them. Everything that a search
compares or adds is expressed in its direction.

* `Direction.isBefore`: the order of times in a direction.
* `Direction.shift`: the time some seconds later in a direction.
* `Direction.positionsFrom`, `Direction.ranks`: the order in which positions and trips are met.
-/

namespace JourneyPlanner

/-- The direction in which a search goes through time. -/
inductive Direction where
  | forward
  | reverse
deriving DecidableEq, Repr

namespace Direction

def opposite : Direction → Direction
  | .forward => .reverse
  | .reverse => .forward

def name : Direction → String
  | .forward => "forward"
  | .reverse => "reverse"

def ofName? (name : String) : Option Direction :=
  if name = "forward" then some .forward
  else if name = "reverse" then some .reverse
  else none

/-- Whether a time is met strictly before another one. -/
def isBefore (d : Direction) (time other : Time) : Bool :=
  match d with
  | .forward => time < other
  | .reverse => other < time

/-- Whether a time is met no later than another one. -/
def isBeforeOrEqual (d : Direction) (time other : Time) : Bool :=
  time = other || d.isBefore time other

/-- The time `span` seconds further, as a number of any size. -/
def shift (d : Direction) (time : Time) (span : Span) : Time :=
  match d with
  | .forward => time + span
  | .reverse => time - span

/-- The time `span` seconds further. -/
def plus (d : Direction) (time : Time) (span : Span) : Checked Time :=
  word (d.shift time span)

/-- The time `span` seconds back. The opposite of `span` has to be a word too. -/
def minus (d : Direction) (time : Time) (span : Span) : Checked Time := do
  d.plus time (← word (-span))

/-- The seconds that pass between two times, positive when the second one is met later. -/
def elapsed (d : Direction) (start stop : Time) : Checked Span :=
  match d with
  | .forward => word (stop - start)
  | .reverse => word (start - stop)

def best (d : Direction) (time other : Time) : Time :=
  if d.isBefore other time then other else time

/-- The time met last. -/
def worst (d : Direction) (time other : Time) : Time :=
  if d.isBefore other time then time else other

/-- A time that no search of the direction reaches. -/
def unreachedTime : Direction → Time
  | .forward => unreached
  | .reverse => -unreached

/-- Whether a position is visited before another one of the same pattern. -/
def precedes (d : Direction) (position other : Nat) : Bool :=
  match d with
  | .forward => position < other
  | .reverse => other < position

/-- The positions visited from `first` on, among `count` positions. -/
def positionsFrom (d : Direction) (first count : Nat) : List Nat :=
  match d with
  | .forward => List.range' first (count - first)
  | .reverse => (List.range (first + 1)).reverse

/-- The elements of a list in the order in which a direction meets them. -/
def order {α : Type} (d : Direction) (xs : List α) : List α :=
  match d with
  | .forward => xs
  | .reverse => xs.reverse

/-- The ranks of `count` trips, the one met first in front. -/
def ranks (d : Direction) (count : Nat) : List Nat :=
  d.order (List.range count)

end Direction

end JourneyPlanner
