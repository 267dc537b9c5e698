import TemporalPlanning.Problem.Condition

/-!
# Plans

A `Plan` lists the timelines with their tokens: which state, from when until when, and which objects
serve its conditions. A search without plan ends in a `Failure`. A `Violation` is a rule that a plan
breaks.
-/

namespace TemporalPlanning

/-- An occurrence of a state with its dates. It ends just before `stop`. -/
structure PlanToken where
  state : String
  start : Int
  stop : Int
  /-- The objects that serve the conditions of the state, in the order of the conditions. -/
  bindings : List ObjectRef
  deriving DecidableEq, Repr

/-- The tokens of one timeline. -/
structure PlanTimeline where
  name : String
  tokens : List PlanToken
  deriving DecidableEq, Repr

/-- A plan. -/
structure Plan where
  timelines : List PlanTimeline
  deriving DecidableEq, Repr

/-- Why a search ended without plan. -/
inductive FailureStatus where
  /-- There was nothing left to try. -/
  | exhausted
  /-- The search was cut short. -/
  | searchExhausted
  deriving DecidableEq, Repr

/-- The end of a search without plan. -/
structure Failure where
  status : FailureStatus
  /-- What was still open, in words. -/
  flawsRemaining : List String
  deriving DecidableEq, Repr

/-- The end of a search. -/
inductive Outcome where
  | solved (plan : Plan)
  | failed (failure : Failure)
  deriving DecidableEq, Repr

/-- The kinds of rules that a plan can break. -/
inductive ViolationKind where
  /-- A token is shorter or longer than its state allows. -/
  | durationOutOfBounds
  /-- Two tokens of one timeline overlap. -/
  | timelineOverlap
  /-- More of a resource is in use than there is. -/
  | capacityExceeded
  /-- A goal has no token. -/
  | goalMissing
  /-- A timeline, state or resource is unknown. -/
  | unknownEntity
  deriving DecidableEq, Repr

/-- A rule that a plan breaks: its kind, the object concerned and an explanation. -/
structure Violation where
  kind : ViolationKind
  entity : String
  message : String
  deriving DecidableEq, Repr

namespace PlanToken

/-- How long a token lasts. -/
def duration (t : PlanToken) : Int := t.stop - t.start

/-- Whether the intervals of two tokens meet. -/
def overlaps (t u : PlanToken) : Bool := t.start < u.stop && u.start < t.stop

/-- A token as messages write it: its dates. -/
def interval (t : PlanToken) : String := s!"[{t.start}, {t.stop})"

end PlanToken

/-- The states of a timeline in order. -/
def PlanTimeline.states (t : PlanTimeline) : List String := t.tokens.map (·.state)

namespace Plan

variable (p : Plan)

/-- The tokens of all timelines. -/
def tokens : List PlanToken := p.timelines.flatMap (·.tokens)

/-- The first entry of a timeline. -/
def timeline? (name : String) : Option PlanTimeline := p.timelines.find? fun t => t.name == name

/-- The tokens of a state in the first entry of a timeline. -/
def tokensOf (name state : String) : List PlanToken :=
  match p.timeline? name with
  | some t => t.tokens.filter fun tok => tok.state == state
  | none => []

/-- The largest of some dates; 0 if there are none. -/
def latestOf : List Int → Int
  | [] => 0
  | t :: rest => rest.foldl max t

/-- The date at which the last token ends. -/
def makespan : Int := latestOf (p.tokens.map (·.stop))

/-- The number of tokens. -/
def tokenCount : Nat := p.timelines.foldr (fun t n => t.tokens.length + n) 0

end Plan

end TemporalPlanning
