/-!
# Distances

A distance bounds how much later one timepoint can be than another. It is a finite number or absent.
Distances live in 64-bit clocks: a sum that reaches `ceiling` bounds nothing any more, and a sum
below `-ceiling` is kept at `-ceiling`, so that every finite distance can be negated.

`Distance.add_finite` says that sums inside the range are exact.
-/

namespace TemporalPlanning

/-- The least upper bound on the difference of two timepoints that is known. -/
inductive Distance where
  | finite (d : Int)
  | unbounded
  deriving DecidableEq, Repr

namespace Distance

/-- The number that stands for no bound: `2 ^ 63 - 1`, the greatest signed integer of 64 bits. -/
def ceiling : Int := 9223372036854775807

/-- The distance that a number bounds: none from the ceiling on. -/
def ofInt (d : Int) : Distance := if ceiling ≤ d then .unbounded else .finite d

/-- The number that a distance is written as. -/
def toInt : Distance → Int
  | .finite d => d
  | .unbounded => ceiling

/-- The bound, if there is one. -/
def bound? : Distance → Option Int
  | .finite d => some d
  | .unbounded => none

/-- The distance along two edges. -/
def add : Distance → Distance → Distance
  | .finite a, .finite b => ofInt (max (a + b) (-ceiling))
  | _, _ => .unbounded

instance : Add Distance := ⟨add⟩

/-- Whether one distance is a tighter bound than another. -/
def tighter : Distance → Distance → Bool
  | .finite a, .finite b => a < b
  | .finite _, .unbounded => true
  | .unbounded, _ => false

/-- Whether a difference of `d` respects the bound. -/
def allows : Distance → Int → Bool
  | .finite b, d => d ≤ b
  | .unbounded, _ => true

theorem add_finite {a b : Int} (lower : -ceiling ≤ a + b) (upper : a + b < ceiling) :
    (finite a + finite b : Distance) = finite (a + b) := by
  show ofInt (max (a + b) (-ceiling)) = _
  have : max (a + b) (-ceiling) = a + b := by omega
  rw [this, ofInt, if_neg (by omega)]

@[simp] theorem unbounded_add (d : Distance) : (unbounded + d : Distance) = unbounded := by
  cases d <;> rfl

@[simp] theorem add_unbounded (d : Distance) : (d + unbounded : Distance) = unbounded := by
  cases d <;> rfl

end Distance

end TemporalPlanning
