import TemporalPlanning.Search.Agenda

/-!
# Repairs of a flaw

`Task.repairs` lists the decisions that could repair a flaw, in the order in which they are tried:
what exists already before what has to be created, and late places of a timeline before early ones.
A new token is proposed only where the chain of its predecessors can be closed.

`Task.admits` looks ahead whether the network has room for a decision, without changing it.
`Candidates` goes through the decisions for a flaw and passes over those without room.
-/

namespace TemporalPlanning

namespace Task

variable (task : Task) (s : PartialPlan)

/-! ### Competing reservations -/

/-- Both orders of two reservations, if they can overlap. -/
def ordersOf (a b : ReservationId) : Except Fault (List Decision) :=
  match s.reservations.reservation? a, s.reservations.reservation? b with
  | some ra, some rb => do
    return if ← ra.canOverlap s.network rb then [.order a b, .order b a] else []
  | _, _ => return []

/-- Both orders of every two reservations that can overlap. -/
def orders : List ReservationId → Except Fault (List Decision)
  | [] => return []
  | a :: rest => do
    let here ← rest.mapM (ordersOf s a)
    return here.flatten ++ (← orders rest)

/-! ### Goals -/

/-- The place that a goal token has to come after: that of the last token which serves an earlier
goal of the same timeline, if goals are reached in their order. -/
def goalFloor (goal : Nat) (timeline : Nat) : Except Fault (Option Nat) :=
  match task.config.goalOrdering with
  | .free => return none
  | .declaration => do
    let earlier := (List.range goal).filter fun i =>
      (task.model.goals[i]?.map (·.timeline)) == some timeline
    -- goals declared earlier may be open still; those give no bound
    let tokens ← earlier.mapM s.chronicle.goalSupport?
    let places ← (tokens.filterMap id).mapM s.chronicle.position?
    return (places.filterMap id).max?

/-- Whether a place comes after a floor. -/
def isAbove (floor : Option Nat) (position : Nat) : Bool :=
  match floor with
  | none => true
  | some f => f < position

/-- The repairs of an open goal. -/
def goalRepairs (goal : Nat) : Except Fault (List Decision) := do
  let g ← Fault.require task.model.goals[goal]?
  let id : TimelineId := ⟨g.timeline⟩
  let t ← s.chronicle.timeline id
  let floor ← task.goalFloor s goal g.timeline
  let final := task.config.finalGoals
  let mayServe (token : TokenId) : Except Fault Bool := do
    let position? ← s.chronicle.position? token
    return position?.any (isAbove floor) && (!final || t.tail? == some token)
  let mayStand (p : Nat) : Except Fault Bool :=
    if isAbove floor p && (!final || p == t.sequence.length) then
      s.chronicle.admitsState id g.state p
    else return false
  -- tokens that are there come first, then new ones
  let existing ← Fault.filter mayServe (s.chronicle.tokensWithState id g.state)
  let places ← Fault.filter mayStand (← s.chronicle.insertablePositions id)
  return existing.map (.supportGoal goal) ++ places.map (.insertGoal goal)

/-! ### Conditions -/

/-- The repairs of a condition that wants units of a resource. -/
def resourceRepairs (token : TokenId) (condition : Nat) (target : ObjectRef) (amount : Nat) :
    List Decision :=
  let matching := match target with
    | .named name => (s.reservations.find? name).toList
    | .anyOf className => s.reservations.ofClass className
  -- a resource too small for the amount is not proposed at all
  let existing := matching.filter fun id =>
    match s.reservations.resource? id with
    | some r => r.canHold amount
    | none => false
  -- a resource is created for a class only, like the first that the class declares
  let created := match target with
    | .named _ => []
    | .anyOf className =>
      match task.model.firstResource? className with
      | some template =>
        if (template.capacity.all (amount ≤ ·)) &&
            task.maySynthesize className (s.reservations.synthesizedCount className) then
          [Decision.createResource token condition className amount]
        else []
      | none => []
  existing.map (fun id => .reserve token condition id amount) ++ created

/-- The repairs of a condition that wants a state right before. -/
def predecessorRepairs (token : TokenId) (condition : Nat) (state : String) :
    Except Fault (List Decision) := do
  let consumer ← s.chronicle.token token
  let joined ← match ← s.chronicle.predecessor? token with
    | some p => do
      let predecessor ← s.chronicle.token p
      -- a token that is locked already has its predecessor, and gets no second link
      pure <| if predecessor.state = state ∧ consumer.locked = false then
          [Decision.link token condition p .adjacent]
        else []
    | none => pure []
  -- a new token can come between the two
  let inserted ← match ← s.chronicle.position? token with
    | some p => do
      pure <| if ← s.chronicle.admitsState consumer.timeline state p then
          [Decision.insertSupplier token condition consumer.timeline state p .adjacent]
        else []
    | none => pure []
  return joined ++ inserted

/-- The decisions that let a new token on an existing timeline support a condition. -/
def insertions (token : TokenId) (condition : Nat) (state : String) (relation : Relation)
    (id : TimelineId) : Except Fault (List Decision) := do
  let t ← s.chronicle.timeline id
  if (t.template? state).isNone then return []
  else
    let free ← s.chronicle.insertablePositions id
    let places ← Fault.filter (s.chronicle.admitsState id state) free
    return places.map fun p => .insertSupplier token condition id state p relation

/-- The repairs of a condition that wants a state of another timeline. -/
def supplierRepairs (token : TokenId) (condition : Nat) (target : ObjectRef) (state : String)
    (relation : Relation) : Except Fault (List Decision) := do
  let hosts := match target with
    | .named name => (s.chronicle.find? name).toList
    | .anyOf className => s.chronicle.ofClass className
  let maySupply (p : TokenId) : Except Fault Bool :=
    if p = token then return false else (s.chronicle.position? p).map Option.isSome
  let holders := hosts.flatMap fun id => s.chronicle.tokensWithState id state
  let suppliers ← Fault.filter maySupply holders
  -- tokens that are there come first, then new ones, and then a timeline that is created
  let inserted ← hosts.mapM (insertions s token condition state relation)
  let created ← match target with
    | .named _ => pure []
    | .anyOf className =>
      match (task.model.timelinesOfClass className).head? with
      | none => pure []
      | some i => do
        let t ← s.chronicle.timeline ⟨i⟩
        pure <| if canFollow t.states state none &&
            task.maySynthesize className (s.chronicle.synthesizedCount className) then
          [Decision.createTimeline token condition className state relation]
        else []
  return suppliers.map (fun p => .link token condition p relation) ++ inserted.flatten ++ created

/-- The repairs of an open condition. -/
def conditionRepairs (token : TokenId) (condition : Nat) : Except Fault (List Decision) := do
  let template? ← s.chronicle.template? token
  match template?.bind (·.conditions[condition]?) with
  | none => return []
  | some (.uses target amount) => return task.resourceRepairs s token condition target amount
  | some (.follows state) => predecessorRepairs s token condition state
  | some (.metBy target state) => task.supplierRepairs s token condition target state .metBy
  | some (.during target state) => task.supplierRepairs s token condition target state .during

/-- The decisions that could repair a flaw, in the order in which they are tried. -/
def repairs : Flaw → Except Fault (List Decision)
  | .openGoal goal => task.goalRepairs s goal
  | .openCondition token condition => task.conditionRepairs s token condition
  | .conflict c => orders s c.members

/-! ### Looking ahead -/

/-- Whether a constraint could be posted. -/
def hasRoom (c : Constraint) : Except Fault Bool := do
  s.network.require c.first
  s.network.require c.second
  return s.network.admits c

/-- Whether the network has room for a decision. Only links and orders are looked at; every other
decision has to be tried. -/
def admits : Decision → Except Fault Bool
  | .link token _ supplier relation => do
    let consumer ← s.chronicle.token token
    let sup ← s.chronicle.token supplier
    match relation with
    | .adjacent =>
      -- a direct predecessor has to stand there already
      if (← s.chronicle.predecessor? token) = some supplier then
        hasRoom s (.exactly sup.stop consumer.start 0)
      else return false
    | .metBy => hasRoom s (.exactly sup.stop consumer.start 0)
    | .during =>
      if ← hasRoom s (.precedes sup.start consumer.start) then
        hasRoom s (.precedes consumer.stop sup.stop)
      else return false
  | .order before after =>
    match s.reservations.reservation? before, s.reservations.reservation? after with
    | some b, some a => hasRoom s (.precedes b.stop a.start)
    | _, _ => return false
  -- whatever places or creates something is tried without looking ahead
  | _ => return true

end Task

/-- The decisions for a flaw, and those of them that were not looked at yet. -/
structure Candidates where
  all : List Decision := []
  remaining : List Decision := []

namespace Candidates

/-- The decisions for a flaw of a partial plan. -/
def ofFlaw (task : Task) (s : PartialPlan) (flaw : Flaw) : Except Fault Candidates :=
  (task.repairs s flaw).map fun decisions => ⟨decisions, decisions⟩

/-- The first of some decisions for which there is room, and the decisions behind it. -/
def firstAdmitted (s : PartialPlan) :
    List Decision → Except Fault (Option Decision × List Decision)
  | [] => return (none, [])
  | d :: rest => do
    if ← Task.admits s d then return (some d, rest) else firstAdmitted s rest

/-- The next decision for which there is room. -/
def next (c : Candidates) (s : PartialPlan) : Except Fault (Option Decision × Candidates) :=
  (firstAdmitted s c.remaining).map fun (d, remaining) => (d, { c with remaining })

/-- Begins again with the first decision. -/
def restart (c : Candidates) : Candidates := { c with remaining := c.all }

end Candidates

end TemporalPlanning
