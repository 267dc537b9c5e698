import TemporalPlanning.PartialPlan.Placement
import TemporalPlanning.Search.Agenda

/-!
# Carrying out decisions

`Task.start` makes the partial plan that holds the declared objects and the facts. `Task.apply`
carries a decision out: it creates and relates what the decision says, checks that no resource is
overloaded in any case, and confirms the reservations that it made. When it gets stuck the partial
plan is left as it was then; going back is up to the search.

Created objects are named after their class, with the least number that makes the name new
(`Task.freshName`).
-/

namespace TemporalPlanning

namespace Task

variable (task : Task)

/-! ### The first partial plan -/

/-- Declares the resources of the model. -/
def declareResources : List ResourceDef → Edit Unit
  | [] => pure ()
  | r :: rest => do
    let _ ← Edit.addResource ⟨r.name, r.className, r.capacity, false⟩
    declareResources rest

/-- Declares the timelines of the model. -/
def declareTimelines : List TimelineDef → Edit Unit
  | [] => pure ()
  | t :: rest => do
    let _ ← Edit.addTimeline t.name t.className t.states false
    declareTimelines rest

/-- Places facts on a timeline. -/
def placeFacts (id : TimelineId) : List GroundRef → Edit Unit
  | [] => pure ()
  | f :: rest => do
    let _ ← Edit.addFact id f.state
    placeFacts id rest

/-- Places the facts of some timelines. -/
def placeAllFacts : List Nat → Edit Unit
  | [] => pure ()
  | i :: rest => do
    placeFacts ⟨i⟩ (task.model.factsOn i)
    placeAllFacts rest

/-- Declares all objects and places all facts. -/
def setUp : Edit Unit := do
  declareResources task.model.resources
  declareTimelines task.model.timelines
  task.placeAllFacts (List.range task.model.timelines.length)

/-- The partial plan with which a search starts. -/
def start : EditResult Unit :=
  task.setUp (.empty task.config.horizon task.model.goals.length)

/-! ### Created objects -/

/-- Whether some object has a name. -/
def isTaken (s : PartialPlan) (name : String) : Bool :=
  task.model.hasObject name || (s.chronicle.find? name).isSome
    || (s.reservations.find? name).isSome

/-- The class with the least number that makes a name which no object has. There are fewer objects
than numbers to try. -/
def freshName (s : PartialPlan) (className : String) : String :=
  let objects :=
    task.model.names.length + s.chronicle.timelines.size + s.reservations.resources.size
  let name (n : Nat) : String := s!"{className}_{n}"
  name (((List.range objects).find? fun n => !task.isTaken s (name n)).getD objects)

/-- A name for a new object of a class. -/
def chooseName (className : String) : Edit String :=
  Edit.query fun s => .ok (task.freshName s className)

/-! ### Steps of decisions -/

/-- Reserves units of a resource for a condition. -/
def reserveFor (id : TokenId) (condition : Nat) (resource : ResourceId) (amount : Nat) :
    Edit ReservationId := do
  let t ← Edit.token id
  let reservation ← Edit.reserve resource id t.start t.stop amount
  Edit.support id condition (.reservation resource reservation)
  return reservation

/-- Relates a token to its supplier in time and records the support. -/
def linkTo (consumer : TokenId) (condition : Nat) (supplier : TokenId) (relation : Relation) :
    Edit Unit := do
  let c ← Edit.token consumer
  let s ← Edit.token supplier
  match relation with
  | .adjacent => Edit.join supplier consumer
  | .metBy => Edit.post (.exactly s.stop c.start 0)
  | .during => do
    Edit.post (.precedes s.start c.start)
    Edit.post (.precedes c.stop s.stop)
  Edit.link consumer condition supplier

/-- Closes the timeline of a goal if goals have to come last. -/
def sealGoal (goal : Nat) : Edit Unit := do
  if task.config.finalGoals then
    let g ← Edit.query fun _ => Fault.require task.model.goals[goal]?
    Edit.sealTail ⟨g.timeline⟩

/-- Lets a token serve a goal. -/
def serveGoal (goal : Nat) (id : TokenId) : Edit Unit := do
  Edit.supportGoal goal id
  task.sealGoal goal

/-- Carries out the steps of a decision; the result lists the reservations made. -/
def carryOut : Decision → Edit (List ReservationId)
  | .supportGoal goal token => do
    task.serveGoal goal token
    return []
  | .insertGoal goal position => do
    let g ← Edit.query fun _ => Fault.require task.model.goals[goal]?
    let token ← Edit.instantiate ⟨g.timeline⟩ g.state
    Edit.insert token position
    task.serveGoal goal token
    return []
  | .reserve token condition resource amount => do
    return [← reserveFor token condition resource amount]
  | .createResource token condition className amount => do
    let capacity := (task.model.firstResource? className).bind (·.capacity)
    let name ← task.chooseName className
    let resource ← Edit.addResource ⟨name, className, capacity, true⟩
    return [← reserveFor token condition resource amount]
  | .link token condition supplier relation => do
    linkTo token condition supplier relation
    return []
  | .insertSupplier token condition timeline state position relation => do
    let supplier ← Edit.instantiate timeline state
    Edit.insert supplier position
    linkTo token condition supplier relation
    return []
  | .createTimeline token condition className state relation => do
    let states := ((task.model.firstTimeline? className).map (·.states)).getD []
    let name ← task.chooseName className
    let timeline ← Edit.addTimeline name (some className) states true
    let supplier ← Edit.instantiate timeline state
    -- the new timeline is empty, so that the supplier is its first token
    Edit.insert supplier 0
    linkTo token condition supplier relation
    return []
  | .order before after => do
    let b? ← Edit.query fun s => .ok (s.reservations.reservation? before)
    let a? ← Edit.query fun s => .ok (s.reservations.reservation? after)
    match b?, a? with
    | some b, some a => Edit.post (.precedes b.stop a.start)
    -- a reservation that is gone cannot be ordered
    | _, _ => Edit.stop (.unresolvable s!"order {before.label} before {after.label}")
    return []

/-- Confirms reservations. -/
def commitAll : List ReservationId → Edit Unit
  | [] => pure ()
  | id :: rest => do
    Edit.commit id
    commitAll rest

/-- Carries out a decision, checks the capacities and confirms the reservations made. -/
def apply (d : Decision) : Edit Unit := do
  let reserved ← task.carryOut d
  Edit.checkCapacity
  commitAll reserved

end Task

end TemporalPlanning
