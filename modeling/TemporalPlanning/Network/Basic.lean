import TemporalPlanning.Handle
import TemporalPlanning.Trail
import TemporalPlanning.Network.Distance

/-!
# Temporal networks

A `Network` relates timepoints by bounds on their differences. It keeps, for every two timepoints,
the tightest known upper bound on the time from the first to the second; timepoint 0 is the origin,
at time 0, and every other timepoint lies between 0 and the horizon.

A `Constraint` asks that the time from one point to another lies between two bounds. Posting it
(`TrackedNetwork.post?`) refuses a constraint that the distances exclude and otherwise tightens
every pair whose shortest connection runs through the new edge. All changes are kept on a trail.
-/

namespace TemporalPlanning

/-- The time from `first` to `second` is at least `lo` and at most `hi`. -/
structure Constraint where
  first : Timepoint
  second : Timepoint
  lo : Int
  hi : Option Int
  deriving DecidableEq, Repr

namespace Constraint

/-- `second` comes exactly `value` after `first`. -/
def exactly (first second : Timepoint) (value : Int) : Constraint :=
  ⟨first, second, value, some value⟩

/-- `second` comes no earlier than `first`. -/
def precedes (first second : Timepoint) : Constraint := ⟨first, second, 0, none⟩

/-- The constraint as messages write it. -/
def label (c : Constraint) : String :=
  s!"{c.first.label} -> {c.second.label} in [{c.lo}, {boundLabel c.hi}]"

end Constraint

/-- The distances between timepoints, row by row, and the latest date of any of them. -/
structure Network where
  rows : Array (Array Distance)
  horizon : Option Int

/-- A distance that is to be lowered. -/
structure Tightening where
  first : Timepoint
  second : Timepoint
  value : Distance

/-- A change of a network, with what it replaced. -/
inductive NetworkChange where
  | lowered (first second : Timepoint) (old : Distance)
  | newTimepoint

namespace Network

/-- The network of the origin alone. -/
def origin (horizon : Option Int) : Network := ⟨#[#[.finite 0]], horizon⟩

/-- The number of timepoints, the origin included. -/
def size (net : Network) : Nat := net.rows.size

/-- All timepoints in order of creation. -/
def timepoints (net : Network) : List Timepoint := (List.range net.size).map Timepoint.mk

/-- Whether a handle is one of this network's timepoints. -/
def contains (net : Network) (t : Timepoint) : Bool := t.index < net.size

/-- The upper bound on the time from one timepoint to another. -/
def distance (net : Network) (t u : Timepoint) : Distance :=
  match net.rows[t.index]? with
  | some row => row[u.index]?.getD .unbounded
  | none => .unbounded

/-- The earliest date of a timepoint. -/
def earliest (net : Network) (t : Timepoint) : Int := -(net.distance t .origin).toInt

/-- The latest date of a timepoint, if it has one. -/
def latest (net : Network) (t : Timepoint) : Option Int := (net.distance .origin t).bound?

/-- Whether a constraint could be posted: the distances leave room for both of its bounds. -/
def admits (net : Network) (c : Constraint) : Bool :=
  (net.distance c.first c.second).allows c.lo &&
    match c.hi with
    | none => true
    | some hi => c.lo ≤ hi && (net.distance c.second c.first).allows (-hi)

/-- Whether `u` can come strictly after `t`. -/
def canBeAfter (net : Network) (t u : Timepoint) : Bool := (net.distance t u).allows 1

/-- The pairs from `t` that get closer when whatever lies `row` away can be reached through
`through`. -/
def lowerings (net : Network) (t : Timepoint) (through : Distance) (row : Timepoint → Distance) :
    List Tightening :=
  net.timepoints.filterMap fun u =>
    let value := through + row u
    if value.tighter (net.distance t u) then some ⟨t, u, value⟩ else none

/-- All pairs that get closer through a new edge from `t` to `u`, by rows. -/
def tightenings (net : Network) (t u : Timepoint) (edge : Distance) : List Tightening :=
  if edge.tighter (net.distance t u) then
    net.timepoints.flatMap fun s =>
      match net.distance s t with
      | .unbounded => []
      | into => net.lowerings s (into + edge) (net.distance u)
  else []

/-- Puts a distance in its place. -/
def setDistance (net : Network) (t u : Timepoint) (d : Distance) : Network :=
  { net with rows := net.rows.modify t.index fun row => row.setIfInBounds u.index d }

/-- One more timepoint, not yet related to any other. -/
def extend (net : Network) : Network :=
  { net with
    rows := ((net.rows.toList.map fun (row : Array Distance) => row.push .unbounded) ++
      [(Array.replicate net.size Distance.unbounded).push (.finite 0)]).toArray }

/-- One timepoint less. -/
def shrink (net : Network) : Network :=
  { net with rows := (net.rows.pop.toList.map Array.pop).toArray }

end Network

instance : Revertible Network NetworkChange where
  revert
    | .lowered t u old, net => net.setDistance t u old
    | .newTimepoint, net => net.shrink

/-- A network with the trail of its changes. -/
abbrev TrackedNetwork := Trailed Network NetworkChange

namespace TrackedNetwork

/-- Lowers one distance. -/
def lower (t : TrackedNetwork) (step : Tightening) : TrackedNetwork :=
  t.perform (.lowered step.first step.second (t.value.distance step.first step.second))
    fun net => net.setDistance step.first step.second step.value

/-- Lowers distances one after the other. -/
def lowerAll (t : TrackedNetwork) (steps : List Tightening) : TrackedNetwork :=
  steps.foldl lower t

/-- Adds an edge. -/
def addEdge (t : TrackedNetwork) (first second : Timepoint) (edge : Distance) : TrackedNetwork :=
  t.lowerAll (t.value.tightenings first second edge)

/-- Adds the edges of a constraint, its upper bound first. -/
def enforce (t : TrackedNetwork) (c : Constraint) : TrackedNetwork :=
  let bounded : TrackedNetwork := match c.hi with
    | some hi => t.addEdge c.first c.second (.ofInt hi)
    | none => t
  bounded.addEdge c.second c.first (.ofInt (-c.lo))

/-- Posts a constraint, unless the network excludes it. -/
def post? (t : TrackedNetwork) (c : Constraint) : Option TrackedNetwork :=
  if t.value.admits c then some (t.enforce c) else none

/-- Posts a constraint if the network admits it, and leaves the network alone otherwise. -/
def postIfAdmitted (t : TrackedNetwork) (c : Constraint) : TrackedNetwork :=
  if t.value.admits c then t.enforce c else t

/-- The window of a timepoint: it lies between the origin and the horizon. -/
def window (net : Network) (t : Timepoint) : Constraint := ⟨.origin, t, 0, net.horizon⟩

/-- Creates a timepoint inside its window. -/
def addTimepoint (t : TrackedNetwork) : TrackedNetwork × Timepoint :=
  let new : Timepoint := ⟨t.value.size⟩
  let wider : TrackedNetwork := t.perform .newTimepoint Network.extend
  (wider.postIfAdmitted (window wider.value new), new)

/-- Lets the connections of `t` run through `pivot`. -/
def relaxThrough (pivot : Timepoint) (t : TrackedNetwork) (first : Timepoint) : TrackedNetwork :=
  match t.value.distance first pivot with
  | .unbounded => t
  | through => t.lowerAll (t.value.lowerings first through (t.value.distance pivot))

/-- Lets the connections of all timepoints run through every other one in turn. -/
def relaxAll (t : TrackedNetwork) : TrackedNetwork :=
  t.value.timepoints.foldl (fun t pivot => t.value.timepoints.foldl (relaxThrough pivot) t) t

/-- Computes all distances anew. A timepoint that would have to come before itself shows that the
network has no solution; it is reported as the constraint that it violates. -/
def propagate (t : TrackedNetwork) : TrackedNetwork × Option Constraint :=
  let closed := t.relaxAll
  let bad := closed.value.timepoints.find? fun u =>
    (closed.value.distance u u).tighter (.finite 0)
  (closed, bad.map fun u => .exactly u u 0)

end TrackedNetwork

end TemporalPlanning
