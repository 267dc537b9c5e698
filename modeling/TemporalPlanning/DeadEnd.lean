import TemporalPlanning.Network.Basic

/-!
# Dead ends

A dead end is the reason for which a repair of a partial plan does not work out. A search goes back
and tries another repair.
-/

namespace TemporalPlanning

/-- Why a repair fails. -/
inductive DeadEnd where
  /-- The network excludes a constraint. -/
  | inconsistent (c : Constraint)
  /-- More units of a resource are in use at some time than there are. -/
  | overCapacity (resource : String) (usage capacity : Nat)
  /-- A timeline does not have a state. -/
  | noSuchState (timeline state : String)
  /-- A flaw has no repair. -/
  | unresolvable (flaw : String)
  deriving DecidableEq, Repr

/-- The message of a dead end. -/
def DeadEnd.message : DeadEnd → String
  | .inconsistent c => s!"inconsistent temporal network: {c.label}"
  | .overCapacity resource usage capacity =>
    s!"capacity of {resource} exceeded: {usage} > {capacity}"
  | .noSuchState timeline state => s!"timeline {timeline} has no state {state}"
  | .unresolvable flaw => s!"no candidate resolves {flaw}"

end TemporalPlanning
