import TemporalPlanning.Reservation.Profile

/-!
# Conflicts

A conflict is a set of reservations that together need more of a resource than there is and that may
be active at the same time. Pairs are judged by what the network still permits, larger sets by the
dates that the plan would get now.
-/

namespace TemporalPlanning

/-- Reservations of a resource that exceed its capacity together, in order of creation. -/
structure Conflict where
  resource : ResourceId
  members : List ReservationId
  deriving DecidableEq, Repr

namespace Reservation

/-- Whether two reservations can share an instant. -/
def canOverlap (net : Network) (a b : Reservation) : Except Fault Bool := do
  net.require a.start
  net.require b.stop
  if net.canBeAfter a.start b.stop then
    net.require b.start
    net.require a.stop
    return net.canBeAfter b.start a.stop
  else return false

/-- The date of a timepoint in a schedule. -/
def dateOf (schedule : List Int) (t : Timepoint) : Except Fault Int :=
  Fault.require schedule[t.index]?

/-- Whether a reservation is active at an instant under a schedule. -/
def activeAt (schedule : List Int) (instant : Int) (r : Reservation) : Except Fault Bool := do
  let start ← dateOf schedule r.start
  if start ≤ instant then
    let stop ← dateOf schedule r.stop
    return instant < stop
  else return false

end Reservation

namespace ReservationBook

variable (book : ReservationBook)

/-- The pairs among some reservations that exceed a capacity and can overlap. -/
def conflictingPairs (net : Network) (capacity : Nat) :
    List (ReservationId × Reservation) → Except Fault (List (List ReservationId))
  | [] => return []
  | (i, a) :: rest => do
    let found ← Fault.filter (fun (_, b) =>
      if capacity < a.amount + b.amount then a.canOverlap net b else return false) rest
    return found.map (fun (j, _) => [i, j]) ++ (← conflictingPairs net capacity rest)

/-- The sets of three and more reservations that exceed a capacity at the start of one of them.
`seen` holds the sets found so far; each set is reported once. -/
def crowdedSets (schedule : List Int) (capacity : Nat) (live : List (ReservationId × Reservation))
    (seen : List (List ReservationId)) :
    List (ReservationId × Reservation) → Except Fault (List (List ReservationId))
  | [] => return []
  | (_, r) :: rest => do
    let instant ← Reservation.dateOf schedule r.start
    -- everything that goes on at the start of `r`
    let active ← Fault.filter (fun (_, o) => o.activeAt schedule instant) live
    let members := active.map (·.1)
    let total := active.foldr (fun e sum => e.2.amount + sum) 0
    -- pairs are reported apart, and each set only once
    if capacity < total ∧ 2 < members.length ∧ members ∉ seen then
      return members :: (← crowdedSets schedule capacity live (members :: seen) rest)
    else crowdedSets schedule capacity live seen rest

/-- The conflicts of one resource: pairs first, then larger sets. -/
def conflictsOn (net : Network) (schedule : List Int) (id : ResourceId) (r : Resource) :
    Except Fault (List Conflict) :=
  match r.capacity with
  | none => return []
  | some capacity => do
    let live := book.on id
    let pairs ← conflictingPairs net capacity live
    let sets ← crowdedSets schedule capacity live [] live
    return (pairs ++ sets).map fun members => ⟨id, members⟩

/-- All conflicts, resource by resource. -/
def conflicts (net : Network) (schedule : List Int) : Except Fault (List Conflict) := do
  let found ← book.entries.mapM fun (id, r) => book.conflictsOn net schedule id r
  return found.flatten

end ReservationBook

end TemporalPlanning
