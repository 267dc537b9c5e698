/-!
# Usage of a resource

A `Usage` takes a number of units from its start up to, but not including, its stop. The usage of a
resource changes only where something starts or stops, and it grows only at a start; its peak is
therefore found by looking at the starts alone.
-/

namespace TemporalPlanning

/-- So many units in use from `start` until just before `stop`. -/
structure Usage where
  start : Int
  stop : Int
  amount : Nat
  deriving DecidableEq, Repr

namespace Usage

/-- Whether a usage goes on at an instant. -/
def activeAt (t : Int) (u : Usage) : Bool := u.start ≤ t && t < u.stop

/-- The units in use at an instant. -/
def total (usages : List Usage) (t : Int) : Nat :=
  (usages.filter (activeAt t)).foldr (fun u sum => u.amount + sum) 0

/-- The most units that are in use at the start of any usage. -/
def peak (usages : List Usage) : Nat :=
  (usages.map fun u => total usages u.start).foldr max 0

end Usage

end TemporalPlanning
