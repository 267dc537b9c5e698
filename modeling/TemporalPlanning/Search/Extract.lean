import TemporalPlanning.Plan.Basic
import TemporalPlanning.Search.Agenda

/-!
# Reading off a plan

`Task.extract` gives every timepoint of a partial plan its date and lists the timelines with their
tokens. A token is bound to the objects that support its conditions.
-/

namespace TemporalPlanning

namespace Task

variable (task : Task) (s : PartialPlan)

/-- The object that a support names. -/
def bindingOf : Support → Except Fault ObjectRef
  | .reservation resource _ => do
    let r ← Fault.require (s.reservations.resource? resource)
    return .named r.name
  | .token supplier => do
    let t ← s.chronicle.token supplier
    return .named (← s.chronicle.timeline t.timeline).name

/-- A token with its dates. -/
def tokenAt (schedule : List Int) (id : TokenId) : Except Fault PlanToken := do
  let t ← s.chronicle.token id
  let start ← Reservation.dateOf schedule t.start
  let stop ← Reservation.dateOf schedule t.stop
  let bindings ← (t.supports.filterMap fun support => support).mapM (bindingOf s)
  return ⟨t.state, start, stop, bindings⟩

/-- The plan that a partial plan amounts to with the dates chosen for it. -/
def extract : Except Fault Plan := do
  let schedule := task.schedule s
  let timelines ← s.chronicle.timelines.toList.mapM fun t => do
    return PlanTimeline.mk t.name (← t.sequence.mapM (tokenAt s schedule))
  return ⟨timelines⟩

end Task

end TemporalPlanning
