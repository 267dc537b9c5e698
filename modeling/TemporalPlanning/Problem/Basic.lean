import TemporalPlanning.Problem.Condition

/-!
# Planning problems

A `Problem` declares resources and timelines, the states that a timeline can be in, the facts that
hold at the start, and the goals that a plan has to reach. Objects may be left without a name; they
are named when the problem is loaded. An *open* class is one of which a plan may create further
objects.
-/

namespace TemporalPlanning

/-- A state of a timeline: how long it lasts and what it asks for. -/
structure StateTemplate where
  name : String
  duration : Duration := .standard
  conditions : List Condition := []
  deriving DecidableEq, Repr

/-- The states that may come right before a state. -/
def StateTemplate.sources (s : StateTemplate) : List String :=
  s.conditions.filterMap Condition.source?

/-- A resource as a problem declares it. -/
structure ResourceSpec where
  className : String
  name : Option String := none
  /-- How many units can be in use at a time; without capacity any number. -/
  capacity : Option Nat := none
  deriving DecidableEq, Repr

/-- A timeline as a problem declares it. -/
structure TimelineSpec where
  className : String
  name : Option String := none
  states : List StateTemplate := []
  deriving DecidableEq, Repr

/-- A state on a timeline, as a fact or as a goal. -/
structure Statement where
  timeline : String
  state : String
  deriving DecidableEq, Repr

/-- A planning problem. -/
structure Problem where
  resources : List ResourceSpec := []
  timelines : List TimelineSpec := []
  facts : List Statement := []
  goals : List Statement := []
  openClasses : List String := []
  deriving DecidableEq, Repr

namespace Problem

def addResource (p : Problem) (r : ResourceSpec) : Problem :=
  { p with resources := p.resources ++ [r] }

def addTimeline (p : Problem) (t : TimelineSpec) : Problem :=
  { p with timelines := p.timelines ++ [t] }

def addFact (p : Problem) (timeline state : String) : Problem :=
  { p with facts := p.facts ++ [⟨timeline, state⟩] }

def addGoal (p : Problem) (timeline state : String) : Problem :=
  { p with goals := p.goals ++ [⟨timeline, state⟩] }

/-- Allows a plan to create further objects of a class. -/
def openClass (p : Problem) (className : String) : Problem :=
  { p with openClasses := p.openClasses ++ [className] }

end Problem

end TemporalPlanning
