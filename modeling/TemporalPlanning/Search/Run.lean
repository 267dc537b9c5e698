import TemporalPlanning.Model.Load
import TemporalPlanning.Search.Apply
import TemporalPlanning.Search.Extract
import TemporalPlanning.Search.Repair

/-!
# The search

The search goes depth first. At a partial plan with a flaw it makes a `Frame` for the flaw and tries
the repairs one by one, each from the partial plan in which the frame was made; a repair that works
out leads on to the next flaw, and a frame without repairs left is given up. The search ends with a
plan when no flaw is left, exhausted when no frame is left, and early when its budget of decisions
or its time is spent.

`Task.explore` counts the budget down, one decision at a time; between two decisions
`Task.backtrack` gives up frames and `Task.select` makes one. The time is read once before each
frame is made and once before each frame is gone back to, and may be over at any of these readings.
-/

namespace TemporalPlanning

/-- The times that a search reads, one after the other: how long it has taken at the next reading,
at the one after it, and so on. -/
abbrev Clock := Nat → TimeSpan

namespace Clock

/-- The clock that stands still. -/
def stopped : Clock := fun _ => ⟨0⟩

/-- The clock after it has been read once. -/
def later (clock : Clock) : Clock := fun n => clock (n + 1)

end Clock

/-- A flaw that is being repaired: the repairs not tried yet, and where to go back to. -/
structure Frame where
  flaw : Flaw
  candidates : Candidates
  mark : Mark

/-- Why there is no plan. -/
inductive SolveError where
  /-- The problem is not well formed. -/
  | invalid (errors : List LoadError)
  /-- Everything was tried. The flaws are those of the first partial plan. -/
  | exhausted (flaws : List String)
  /-- The search was cut short. The flaws are those open at that time. -/
  | cutShort (decisions : Nat) (flaws : List String)

namespace SolveError

/-- The message of an error. -/
def message : SolveError → String
  | .invalid errors =>
    let first := ((errors.head?).map LoadError.message).getD ""
    s!"invalid problem: {errors.length} error(s), first: {first}"
  | .exhausted flaws => s!"search space exhausted ({flaws.length} flaw(s) open)"
  | .cutShort decisions _ => s!"search budget exhausted after {decisions} decisions"

/-- The flaws that were open. -/
def flawsRemaining : SolveError → List String
  | .invalid _ => []
  | .exhausted flaws => flaws
  | .cutShort _ flaws => flaws

/-- The failure that a search reports; an invalid problem is not searched. -/
def failure? : SolveError → Option Failure
  | .invalid _ => none
  | .exhausted flaws => some ⟨.exhausted, flaws⟩
  | .cutShort _ flaws => some ⟨.searchExhausted, flaws⟩

end SolveError

/-- A plan, or the reason for which there is none. -/
abbrev Answer := Except SolveError Plan

namespace Task

variable (task : Task)

/-- Whether the time is spent at the next reading. -/
def isLate (clock : Clock) : Bool :=
  match task.config.deadline with
  | none => false
  | some deadline => deadline.nanoseconds ≤ (clock 0).nanoseconds

/-- Ends a search early. -/
def cutShort (s : PartialPlan) (decisions : Nat) : Except Fault Answer := do
  return .error (.cutShort decisions (← task.describeOpenFlaws s))

/-- How a search goes on from a partial plan with the frames that are still open, and with the
readings that are still to come. -/
abbrev Continuation := Clock → PartialPlan → List Frame → Except Fault Answer

/-- Turns to the next flaw of a partial plan: makes a frame for it, or ends with the plan. -/
def select (decisions : Nat) (go : Continuation) : Continuation := fun clock s stack =>
  if task.isLate clock then task.cutShort s decisions
  else do
    match ← task.nextFlaw s with
    | none => return .ok (← task.extract s)
    | some flaw =>
      let candidates ← Candidates.ofFlaw task s flaw
      go clock.later s (⟨flaw, candidates, s.mark⟩ :: stack)

/-- Goes back to the newest frame with a repair left, gives up the frames above it, and hands the
repair on to `attempt`. -/
def backtrack (root : List String) (decisions : Nat) (attempt : Decision → Continuation)
    (clock : Clock) (s : PartialPlan) : (stack : List Frame) → Except Fault Answer
  | [] => return .error (.exhausted root)
  | frame :: outer =>
    if task.isLate clock then task.cutShort s decisions
    else do
      let s ← s.undoTo frame.mark
      match ← frame.candidates.next s with
      | (none, _) => backtrack root decisions attempt clock.later s outer
      | (some d, candidates) => attempt d clock.later s ({ frame with candidates } :: outer)

/-- Tries the repairs of the open frames, with `budget` decisions left. `root` describes the flaws
of the first partial plan. -/
def explore (root : List String) : (budget : Nat) → Continuation
  | 0, _, s, stack =>
    if stack.isEmpty then return .error (.exhausted root)
    else task.cutShort s task.config.maxDecisions
  | budget + 1, clock, s, stack =>
    let decisions := task.config.maxDecisions - (budget + 1)
    task.backtrack root decisions (fun d clock s stack =>
      match task.apply d s with
      -- an accepted decision spends one of the budget, and so does a refused one
      | .done () s => task.select (decisions + 1) (explore root budget) clock s stack
      | .stuck _ s => explore root budget clock s stack
      | .forbidden fault => .error fault) clock s stack

/-- Searches a plan for a model. Facts that contradict each other leave nothing to try. -/
def run (clock : Clock) : Except Fault Answer :=
  match task.start with
  | .forbidden fault => .error fault
  | .stuck why _ => return .error (.exhausted [why.message])
  | .done () s => do
    let root ← task.describeOpenFlaws s
    task.select 0 (task.explore root task.config.maxDecisions) clock s []

end Task

/-- Loads a problem and searches a plan for it. -/
def Problem.solve (p : Problem) (config : Config) (clock : Clock) : Except Fault Answer :=
  match Model.load p with
  | .error errors => return .error (.invalid errors)
  | .ok model => Task.run ⟨model, config⟩ clock

end TemporalPlanning
