import TemporalPlanning.Handle

/-!
# Faults

A fault is a use of a partial plan that its rules forbid: a handle of nothing, a position that is
closed, a support given twice, a mark that lies ahead of the trail. A fault is not a dead end of a
search; it ends the whole run.
-/

namespace TemporalPlanning

/-- Why a step is forbidden. -/
inductive Fault where
  /-- A handle or an index refers to nothing. -/
  | outOfRange
  /-- A mark of the temporal network lies ahead of its trail. -/
  | networkUnderflow
  /-- A mark of the reservations lies ahead of their trail. -/
  | reservationUnderflow
  /-- A mark of the timelines lies ahead of their trail. -/
  | chronicleUnderflow
  /-- A reservation was withdrawn and cannot be confirmed. -/
  | withdrawn (id : ReservationId)
  /-- A fact comes after planned tokens of its timeline. -/
  | lateFact (timeline : String)
  /-- A position of a timeline takes no token. -/
  | closedPosition (position : Nat) (timeline : String)
  /-- Two tokens are to be joined that are no neighbours. -/
  | notAdjacent
  /-- A condition has its support already. -/
  | conditionSupported (condition : Nat) (token : TokenId)
  /-- A goal has its support already. -/
  | goalSupported (goal : Nat)
  deriving DecidableEq, Repr

/-- The message of a fault. -/
def Fault.message : Fault → String
  | .outOfRange => "index out of bounds"
  | .networkUnderflow => "temporal trail underflow"
  | .reservationUnderflow => "ledger trail underflow"
  | .chronicleUnderflow => "graph trail underflow"
  | .withdrawn id => s!"commit of retracted reservation {id.label}"
  | .lateFact timeline => s!"fact added to {timeline} after planned tokens"
  | .closedPosition position timeline => s!"position {position} of {timeline} is not insertable"
  | .notAdjacent => "lock between non-adjacent tokens"
  | .conditionSupported condition token =>
    s!"condition {condition} of {token.label} already supported"
  | .goalSupported goal => s!"goal {goal} already supported"

/-- The result of a look-up that must not miss. -/
def Fault.require {α : Type} : Option α → Except Fault α
  | some a => .ok a
  | none => .error .outOfRange

/-- The elements of a list that pass a test, in order. The first fault of a test ends it all. -/
def Fault.filter {α : Type} (test : α → Except Fault Bool) : List α → Except Fault (List α)
  | [] => .ok []
  | a :: rest => do
    let passes ← test a
    let kept ← Fault.filter test rest
    return if passes then a :: kept else kept

/-- Tests without fault filter a list as the answers say. -/
theorem Fault.filter_eq_ok {α : Type} {test : α → Except Fault Bool} {p : α → Bool} {as : List α}
    (h : ∀ a ∈ as, test a = .ok (p a)) : Fault.filter test as = .ok (as.filter p) := by
  induction as with
  | nil => rfl
  | cons a rest ih =>
    have hrest := ih fun b hb => h b (List.mem_cons_of_mem a hb)
    have ha := h a List.mem_cons_self
    simp only [Fault.filter, ha, hrest]
    cases hp : p a <;> simp [hp, bind, Except.bind, pure, Except.pure]

end TemporalPlanning
