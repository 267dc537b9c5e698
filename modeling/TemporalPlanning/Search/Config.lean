import TemporalPlanning.Problem.Wire

/-!
# Configuration of a search

The limits of a search and the choices that it leaves to its user, with their written form. All
fields may be left out.
-/

namespace TemporalPlanning

/-- In which order the goals of a timeline may be reached. -/
inductive GoalOrdering where
  /-- In any order; one token may serve several goals. -/
  | free
  /-- In the order of declaration, each by a token of its own. -/
  | declaration
  deriving DecidableEq, Repr

/-- How dates are chosen for the timepoints of a plan. -/
inductive TimeSelection where
  /-- As early as possible. -/
  | earliest
  /-- In the middle of the dates that are open, one timepoint after the other. -/
  | midpoint
  deriving DecidableEq, Repr

/-- A length of time, in whole nanoseconds. -/
structure TimeSpan where
  nanoseconds : Nat
  deriving DecidableEq, Repr

/-- The limits and choices of a search. -/
structure Config where
  /-- How many repairs may be tried. -/
  maxDecisions : Nat := 10000
  /-- How long the search may take. -/
  deadline : Option TimeSpan := none
  /-- The latest date of any timepoint. -/
  horizon : Option Int := none
  goalOrdering : GoalOrdering := .free
  /-- Whether goals have to be the last tokens of their timelines. -/
  finalGoals : Bool := false
  /-- How many objects of an open class may be created, resources and timelines apart. -/
  maxSynthesizedPerClass : Nat := 2
  timeSelection : TimeSelection := .earliest
  deriving DecidableEq, Repr

namespace GoalOrdering

def toJson : GoalOrdering → Json
  | .free => .text "free"
  | .declaration => .text "declaration"

def decoder : Decoder GoalOrdering := .word [("free", .free), ("declaration", .declaration)]

end GoalOrdering

namespace TimeSelection

def toJson : TimeSelection → Json
  | .earliest => .text "earliest"
  | .midpoint => .text "midpoint"

def decoder : Decoder TimeSelection := .word [("earliest", .earliest), ("midpoint", .midpoint)]

end TimeSelection

namespace TimeSpan

def ofMilliseconds (n : Nat) : TimeSpan := ⟨n * 1000000⟩

/-- The number of nanoseconds in a second. -/
def perSecond : Nat := 1000000000

def toJson (t : TimeSpan) : Json :=
  .object [("secs", .nat (t.nanoseconds / perSecond)), ("nanos", .nat (t.nanoseconds % perSecond))]

/-- Seconds and nanoseconds, the latter carried over into seconds, which have to fit 64 bits. -/
def record : Record TimeSpan where
  start := ⟨0⟩
  fields := [
    .required "secs" .nat64 fun secs t => ⟨t.nanoseconds + secs * perSecond⟩,
    .required "nanos" .nat32 fun nanos t => ⟨t.nanoseconds + nanos⟩]
  closed := true
  check t := if t.nanoseconds / perSecond < UInt64.size then .ok t else .error .mismatched

def decoder : Decoder TimeSpan := record.read

end TimeSpan

namespace Config

def toJson (c : Config) : Json :=
  .object [("max_decisions", .nat c.maxDecisions), ("deadline", .option TimeSpan.toJson c.deadline),
    ("horizon", .option .int c.horizon), ("goal_ordering", c.goalOrdering.toJson),
    ("final_goals", .bool c.finalGoals),
    ("max_synthesized_per_class", .nat c.maxSynthesizedPerClass),
    ("time_selection", c.timeSelection.toJson)]

def record : Record Config where
  start := {}
  fields := [
    .defaulted "max_decisions" .nat64 fun maxDecisions c => { c with maxDecisions },
    .defaulted "deadline" (.option TimeSpan.decoder) fun deadline c => { c with deadline },
    .defaulted "horizon" (.option .int64) fun horizon c => { c with horizon },
    .defaulted "goal_ordering" GoalOrdering.decoder fun goalOrdering c => { c with goalOrdering },
    .defaulted "final_goals" .bool fun finalGoals c => { c with finalGoals },
    .defaulted "max_synthesized_per_class" .nat64
      fun maxSynthesizedPerClass c => { c with maxSynthesizedPerClass },
    .defaulted "time_selection" TimeSelection.decoder
      fun timeSelection c => { c with timeSelection }]

def decoder : Decoder Config := record.read

/-- A configuration from its text. -/
def ofText (text : String) : Except Reject Config := (Document.ofText text).decode decoder

end Config

end TemporalPlanning
