import JourneyPlanner.Clock.Time

/-!
# Transfer constraints

What a rule may say about the change from one trip to another, and how desirable the change is.
-/

namespace JourneyPlanner

/-- A cost in hundredths of a second of perceived time. -/
abbrev Cost := Int

/-- What is known about the change from one trip to another. -/
inductive Constraint where
  /-- nothing: the usual slacks apply -/
  | regular
  /-- the second trip waits for the first one -/
  | guaranteed
  /-- the traveller stays in the vehicle -/
  | staySeated
  /-- the change takes at least that long -/
  | minTime (duration : Span)
  /-- the change is forbidden -/
  | notAllowed
deriving DecidableEq, Repr, Inhabited

namespace Constraint

def isRegular (c : Constraint) : Bool := c == .regular

def isNotAllowed (c : Constraint) : Bool := c == .notAllowed

def isStaySeated (c : Constraint) : Bool := c == .staySeated

def isGuaranteed (c : Constraint) : Bool := c == .guaranteed

/-- Whether the slacks of boarding and alighting do not count. -/
def isFacilitated (c : Constraint) : Bool := c.isStaySeated || c.isGuaranteed

/-- The least time that the change takes, when one is given. -/
def minTime? : Constraint → Option Span
  | .minTime duration => some duration
  | _ => none

/-- How undesirable a change is: staying seated comes before a guaranteed change, which comes
before all others. -/
def priorityCost : Constraint → Cost
  | .staySeated => 1000
  | .guaranteed => 2000
  | _ => 3000

def describe : Constraint → Checked String
  | .regular => pure "regular"
  | .guaranteed => pure "guaranteed"
  | .staySeated => pure "stay-seated"
  | .minTime duration => return "min-time " ++ (← Span.format duration)
  | .notAllowed => pure "not-allowed"

end Constraint

end JourneyPlanner
