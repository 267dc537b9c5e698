import TemporalPlanning.Plan.Verify

/-!
# Metrics of plans

`Plan.metrics` sums a plan up: when it ends, how many tokens it has, the peak of every resource that
it takes, and how much of each bounded resource it uses over its whole length. The use of a resource
is kept as exact numbers (`Workload`); quotients are computed from it at the end.
-/

namespace TemporalPlanning

/-- How much of a bounded resource a plan uses: the sum of units times length, and the capacity. -/
structure Workload where
  busy : Int
  capacity : Nat
  deriving DecidableEq, Repr

/-- A summary of a plan. -/
structure Metrics where
  makespan : Int
  tokenCount : Nat
  /-- The peak of every resource that is taken, by name. -/
  peaks : List (String × Nat)
  /-- The use of every resource of positive capacity that is taken, by name. -/
  workloads : List (String × Workload)

/-- The share of a resource that is used until the end of a plan; none of it in an empty plan. -/
def Workload.utilization (w : Workload) (makespan : Int) : Float :=
  if makespan = 0 then 0.0
  else Float.ofInt w.busy / (Float.ofNat w.capacity * Float.ofInt makespan)

namespace Metrics

variable (k : Metrics)

/-- The share that is used of each bounded resource, by name. -/
def utilizations : List (String × Float) :=
  k.workloads.map fun (name, w) => (name, w.utilization k.makespan)

/-- The mean share over all bounded resources; 0 if there are none. The sum starts at the zero that
leaves the sign of every other zero alone. -/
def averageUtilization : Float :=
  if k.workloads.isEmpty then 0.0
  else (k.utilizations.foldl (fun sum u => sum + u.2) (-0.0)) / Float.ofNat k.workloads.length

/-- Whether a plan ends in time and uses its resources well enough. -/
def meets (maxMakespan : Int) (minUtilization : Float) : Bool :=
  k.makespan ≤ maxMakespan && minUtilization ≤ k.averageUtilization

end Metrics

namespace Plan

/-- The resources that the tokens of known states take, by name. -/
def resourceUses (m : Model) (p : Plan) : List (String × Usage) :=
  p.timelines.flatMap fun e =>
    match m.timelineTemplate? e.name with
    | none => []
    | some t => e.tokens.flatMap fun tok =>
      match t.template? tok.state with
      | none => []
      | some state => tok.uses state

/-- The sum of units times length. -/
def busyTime (usages : List Usage) : Int :=
  usages.foldr (fun u sum => (u.stop - u.start) * (u.amount : Int) + sum) 0

/-- The summary of a plan. -/
def metrics (m : Model) (p : Plan) : Metrics :=
  let uses := p.resourceUses m
  let byName := (sortedNames (uses.map (·.1))).map fun name =>
    (name, (uses.filter (·.1 == name)).map (·.2))
  { makespan := p.makespan
    tokenCount := p.tokenCount
    peaks := byName.map fun (name, usages) => (name, Usage.peak usages)
    workloads := byName.filterMap fun (name, usages) =>
      match (m.resourceTemplate? name).bind (·.capacity) with
      | some capacity => if capacity = 0 then none else some (name, ⟨busyTime usages, capacity⟩)
      | none => none }

end Plan

end TemporalPlanning
