import TemporalPlanning.DeadEnd
import TemporalPlanning.Reservation.Basic
import TemporalPlanning.Usage

/-!
# Usage profiles

Before the dates of a plan are fixed, a reservation *may* be active from its earliest start until
its latest stop, and it *must* be active from its latest start until its earliest stop. What may be
active bounds the usage of a resource from above (`peakUsage`); what must be active bounds it from
below, and a repair that pushes that bound above a capacity fails (`checkCapacity`).
-/

namespace TemporalPlanning

namespace Network

/-- Refuses a handle that is none of the network's timepoints. -/
def require (net : Network) (t : Timepoint) : Except Fault Unit :=
  if net.contains t then .ok () else .error .outOfRange

end Network

namespace Reservation

/-- When a reservation may be active, cut to the window from `lo` to `hi`. -/
def possible (r : Reservation) (net : Network) (lo hi : Int) : Except Fault Usage := do
  net.require r.start
  net.require r.stop
  let latest := match net.latest r.stop with
    | some latest => min latest hi
    | none => hi
  return ⟨max (net.earliest r.start) lo, latest, r.amount⟩

/-- When a reservation must be active; a start that may come arbitrarily late forces nothing. -/
def compulsory (r : Reservation) (net : Network) : Except Fault (Option Usage) := do
  net.require r.start
  net.require r.stop
  return (net.latest r.start).bind fun latest =>
    let earliest := net.earliest r.stop
    if latest < earliest then some ⟨latest, earliest, r.amount⟩ else none

end Reservation

namespace ReservationBook

variable (book : ReservationBook)

/-- The most units of a resource that may be in use at some instant of a window. -/
def peakUsage (resource : ResourceId) (lo hi : Int) (net : Network) : Except Fault Nat := do
  let usages ← (book.on resource).mapM fun (_, r) => r.possible net lo hi
  return Usage.peak (usages.filter fun u => u.start < u.stop)

/-- Looks at the reservations of a resource one by one: none may exceed the capacity alone. The
result lists when they must be active. -/
def compulsoryUsages (name : String) (capacity : Nat) (net : Network) :
    List (ReservationId × Reservation) → Except Fault (Except DeadEnd (List Usage))
  | [] => return .ok []
  | (_, r) :: rest =>
    if capacity < r.amount then return .error (.overCapacity name r.amount capacity)
    else do
      let usage? ← r.compulsory net
      return (← compulsoryUsages name capacity net rest).map fun usages => usage?.toList ++ usages

/-- Checks one resource for units that are in use at the same time in any case. -/
def checkResource (net : Network) (id : ResourceId) (r : Resource) :
    Except Fault (Option DeadEnd) :=
  match r.capacity with
  | none => return none
  | some capacity => do
    match ← compulsoryUsages r.name capacity net (book.on id) with
    -- one reservation alone is too much
    | .error deadEnd => return some deadEnd
    | .ok usages =>
      let peak := Usage.peak usages
      return if capacity < peak then some (.overCapacity r.name peak capacity) else none

/-- The first dead end among some resources. -/
def firstOverload (net : Network) : List (ResourceId × Resource) → Except Fault (Option DeadEnd)
  | [] => return none
  | (id, r) :: rest => do
    match ← book.checkResource net id r with
    | some deadEnd => return some deadEnd
    | none => firstOverload net rest

/-- Checks every resource for units that are in use at the same time in any case. -/
def checkCapacity (net : Network) : Except Fault (Option DeadEnd) :=
  book.firstOverload net book.entries

end ReservationBook

end TemporalPlanning
