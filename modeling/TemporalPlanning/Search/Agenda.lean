import TemporalPlanning.Model.Basic
import TemporalPlanning.Network.Schedule
import TemporalPlanning.Search.Config
import TemporalPlanning.Search.Flaw

/-!
# The agenda of a search

A `Task` is what a search is asked for: a model and a configuration. For a partial plan it says
which flaws are open, in the order in which they are repaired: goals first, then conditions by the
age of their tokens, then conflicts. Conflicts are looked for only when nothing else is open.
-/

namespace TemporalPlanning

/-- A model and how to plan for it. -/
structure Task where
  model : Model
  config : Config

namespace Task

variable (task : Task) (s : PartialPlan)

/-- The dates that the timepoints would get if the partial plan were complete. -/
def schedule : List Int :=
  match task.config.timeSelection with
  | .earliest => s.network.earliestSchedule
  | .midpoint => s.network.midpointSchedule

/-- Whether another object of a class may be created beside those created already. -/
def maySynthesize (className : String) (already : Nat) : Bool :=
  task.model.isOpen className && already < task.config.maxSynthesizedPerClass

/-! ### Open flaws -/

/-- Whether a goal has no token. -/
def isGoalOpen (goal : Nat) : Except Fault Bool := do
  return (← s.chronicle.goalSupport? goal).isNone

/-- The goals without token. -/
def openGoals : Except Fault (List Flaw) := do
  let goals ← Fault.filter (isGoalOpen s) (List.range task.model.goals.length)
  return goals.map .openGoal

/-- The conditions of a token without support. -/
def openConditionsOf (e : TokenId × Token) : List Flaw :=
  ((List.range e.2.supports.length).filter fun i => e.2.supports[i]? == some none).map
    (.openCondition e.1)

/-- The conditions without support. -/
def openConditions : List Flaw := s.chronicle.tokenEntries.flatMap openConditionsOf

/-- The conflicts between reservations. -/
def conflicts : Except Fault (List Flaw) :=
  (s.reservations.conflicts s.network (task.schedule s)).map fun found => found.map .conflict

/-- The flaw to be repaired next. -/
def nextFlaw : Except Fault (Option Flaw) := do
  match (← task.openGoals s) ++ openConditions s with
  | flaw :: _ => return some flaw
  | [] => return (← task.conflicts s).head?

/-- All open flaws. -/
def openFlaws : Except Fault (List Flaw) := do
  return (← task.openGoals s) ++ openConditions s ++ (← task.conflicts s)

/-! ### Descriptions -/

/-- A flaw in words. -/
def describe : Flaw → Except Fault String
  | .openGoal goal => do
    let g ← Fault.require task.model.goals[goal]?
    let t ← Fault.require task.model.timelines[g.timeline]?
    return s!"goal {t.name}.{g.state}"
  | .openCondition id condition => do
    let t ← s.chronicle.token id
    let template? ← s.chronicle.template? id
    let host ← s.chronicle.timeline t.timeline
    -- a slot without a condition is shown by its number
    let what := match template?.bind (·.conditions[condition]?) with
      | some c => c.label
      | none => s!"condition {condition}"
    return s!"{host.name}.{t.state}#{id.index}: {what}"
  | .conflict c => do
    let r ← Fault.require (s.reservations.resource? c.resource)
    return s!"conflict on {r.name}: {c.members.length} reservations"

/-- All open flaws in words. -/
def describeOpenFlaws : Except Fault (List String) := do
  (← task.openFlaws s).mapM (task.describe s)

end Task

end TemporalPlanning
