import TemporalPlanning.Model.Basic
import TemporalPlanning.SortedNames

/-!
# Loading a problem

`Model.load` names the objects of a problem, resolves its references and reports everything that is
wrong with it, in the order in which the problem is gone through: resources, timelines with their
states, facts, goals, conditions, open classes. Only a problem without any error becomes a model.
-/

namespace TemporalPlanning

/-- What is wrong with a problem. -/
inductive LoadError where
  /-- Two objects have the same name. -/
  | duplicateName (name : String)
  /-- A timeline declares a state twice. -/
  | duplicateState (timeline state : String)
  /-- The duration of a state is out of order or out of range. -/
  | invalidDuration (timeline state : String) (duration : Duration)
  /-- A fact names a resource. -/
  | factOnResource (name : String)
  /-- A fact is no state of its timeline. -/
  | unknownFact (timeline state : String)
  /-- A goal names no declared timeline. -/
  | unknownGoalTimeline (name : String)
  /-- A goal is no state of its timeline. -/
  | unknownGoal (timeline state : String)
  /-- A condition names no resource. `site` is the state with the condition. -/
  | unknownResource (site name : String)
  /-- A condition wants a class of resources that has none. -/
  | unknownResourceClass (site className : String)
  /-- A condition wants a state before that the timeline does not have. -/
  | unknownSource (site state : String)
  /-- A condition names no timeline. -/
  | unknownTimeline (site name : String)
  /-- A condition wants a state that the named timeline cannot be in. -/
  | unknownState (site timeline state : String)
  /-- A condition wants a class of timelines that has none. -/
  | unknownTimelineClass (site className : String)
  /-- A condition wants a state that no timeline of the class has. -/
  | unknownClassState (site className state : String)
  /-- An open class has no object. -/
  | unknownOpenClass (className : String)
  deriving DecidableEq, Repr

namespace LoadError

/-- The kind of an error, as reports name it. -/
def kind : LoadError → String
  | .duplicateName _ => "DuplicateName"
  | .duplicateState _ _ => "DuplicateState"
  | .invalidDuration _ _ _ => "InvalidDuration"
  | .factOnResource _ | .unknownGoalTimeline _ | .unknownTimeline _ _ => "UnknownTimeline"
  | .unknownFact _ _ | .unknownGoal _ _ | .unknownSource _ _ => "UnknownState"
  | .unknownState _ _ _ | .unknownClassState _ _ _ => "UnknownState"
  | .unknownResource _ _ => "UnknownResource"
  | .unknownResourceClass _ _ | .unknownTimelineClass _ _ | .unknownOpenClass _ => "UnknownClass"

/-- The message of an error. -/
def message : LoadError → String
  | .duplicateName name => s!"Duplicate object name: {name}"
  | .duplicateState timeline state => s!"Timeline '{timeline}' declares state '{state}' twice"
  | .invalidDuration timeline state duration =>
    s!"State '{timeline}.{state}' has invalid duration bounds {duration.label}"
  | .factOnResource name => s!"Fact names resource '{name}' as a timeline"
  | .unknownFact timeline state => s!"Fact '{timeline}.{state}' is not a state of its timeline"
  | .unknownGoalTimeline name => s!"Goal references unknown timeline '{name}'"
  | .unknownGoal timeline state => s!"Goal '{timeline}.{state}' is not a state of its timeline"
  | .unknownResource site name => s!"State '{site}' uses unknown resource '{name}'"
  | .unknownResourceClass site className =>
    s!"State '{site}' uses unknown resource class '{className}'"
  | .unknownSource site state => s!"State '{site}' transitions from unknown state '{state}'"
  | .unknownTimeline site name => s!"State '{site}' refers to unknown timeline '{name}'"
  | .unknownState site timeline state =>
    s!"State '{site}' refers to unknown state '{timeline}.{state}'"
  | .unknownTimelineClass site className =>
    s!"State '{site}' refers to unknown timeline class '{className}'"
  | .unknownClassState site className state =>
    s!"No timeline of class '{className}' has state '{state}' (used by '{site}')"
  | .unknownOpenClass className => s!"Open class '{className}' has no declared instance"

end LoadError

namespace Load

/-! ### Names -/

/-- The name of an object: its own, or its class and its place in the list. -/
def nameOf (name : Option String) (className : String) (index : Nat) : String :=
  name.getD s!"{className}_{index}"

/-- The resources of a problem with their names. -/
def resourceDefs (p : Problem) : List ResourceDef :=
  p.resources.mapIdx fun i r => ⟨nameOf r.name r.className i, r.className, r.capacity⟩

/-- The declared timelines of a problem with their names. -/
def timelineDefs (p : Problem) : List TimelineDef :=
  p.timelines.mapIdx fun i t => ⟨nameOf t.name t.className i, some t.className, t.states⟩

/-- The errors of the states of a timeline. `seen` holds the states that come before. -/
def stateErrors (timeline : String) : (seen : List String) → List StateTemplate → List LoadError
  | _, [] => []
  | seen, s :: rest =>
    (if seen.contains s.name then [.duplicateState timeline s.name] else [])
    ++ (if s.duration.isValid then [] else [.invalidDuration timeline s.name s.duration])
    ++ stateErrors timeline (s.name :: seen) rest

/-- Enters the resources from index `i` on into the names. -/
def enterResources (names : List (String × ObjectKey)) :
    (i : Nat) → List ResourceDef → List (String × ObjectKey) × List LoadError
  | _, [] => (names, [])
  | i, r :: rest =>
    let taken := (names.lookup r.name).isSome
    let (names', errors) := enterResources ((r.name, .resource i) :: names) (i + 1) rest
    (names', (if taken then [.duplicateName r.name] else []) ++ errors)

/-- Enters the timelines from index `i` on into the names and checks their states. -/
def enterTimelines (names : List (String × ObjectKey)) :
    (i : Nat) → List TimelineDef → List (String × ObjectKey) × List LoadError
  | _, [] => (names, [])
  | i, t :: rest =>
    let taken := (names.lookup t.name).isSome
    let (names', errors) := enterTimelines ((t.name, .timeline i) :: names) (i + 1) rest
    (names',
      (if taken then [.duplicateName t.name] else []) ++ stateErrors t.name [] t.states ++ errors)

/-! ### Facts and goals -/

/-- What is known while the facts are gone through. -/
structure Ground where
  timelines : List TimelineDef
  names : List (String × ObjectKey)
  facts : List GroundRef := []
  errors : List LoadError := []

/-- Resolves a fact. A name that stands for nothing becomes a timeline of facts. -/
def addFact (g : Ground) (fact : Statement) : Ground :=
  match g.names.lookup fact.timeline with
  | some (.resource _) => { g with errors := g.errors ++ [.factOnResource fact.timeline] }
  -- a fact is kept even if it is reported, so that later errors are found as well
  | some (.timeline i) =>
    let errors := match g.timelines[i]? with
      | some t =>
        if t.className.isSome && (t.template? fact.state).isNone then
          [.unknownFact t.name fact.state]
        else []
      | none => []
    { g with facts := g.facts ++ [⟨i, fact.state⟩], errors := g.errors ++ errors }
  -- a name that nothing bears yet becomes a timeline without class and states
  | none =>
    let i := g.timelines.length
    { g with
      timelines := g.timelines ++ [⟨fact.timeline, none, []⟩]
      names := (fact.timeline, .timeline i) :: g.names
      facts := g.facts ++ [⟨i, fact.state⟩] }

/-- Whether a timeline can be in a state: it declares the state or a fact puts it there. -/
def canHold (timelines : List TimelineDef) (facts : List GroundRef) (i : Nat) (state : String) :
    Bool :=
  (timelines[i]?.bind (·.template? state)).isSome || facts.contains ⟨i, state⟩

/-- Resolves the goals. A goal on an unknown timeline is dropped. -/
def resolveGoals (g : Ground) : List Statement → List GroundRef × List LoadError
  | [] => ([], [])
  | goal :: rest =>
    let (goals, errors) := resolveGoals g rest
    let target? := match g.names.lookup goal.timeline with
      -- a timeline given by its facts alone has no declaration to take the goal's state from
      | some (.timeline i) => if (g.timelines[i]?.bind (·.className)).isSome then some i else none
      | _ => none
    match target? with
    | none => (goals, .unknownGoalTimeline goal.timeline :: errors)
    | some i =>
      (⟨i, goal.state⟩ :: goals,
        (if canHold g.timelines g.facts i goal.state then []
          else [.unknownGoal goal.timeline goal.state]) ++ errors)

/-! ### Conditions and open classes -/

/-- What is wrong with a condition of a state of `owner`. -/
def conditionErrors (resources : List ResourceDef) (g : Ground) (owner : TimelineDef)
    (state : String) (condition : Condition) : List LoadError :=
  let site := s!"{owner.name}.{state}"
  match condition with
  | .uses (.named name) _ =>
    match g.names.lookup name with
    | some (.resource _) => []
    | _ => [.unknownResource site name]
  -- a class of resources is known if one of them is declared
  | .uses (.anyOf className) _ =>
    if resources.any (·.className == className) then [] else [.unknownResourceClass site className]
  | .follows source =>
    if (owner.template? source).isSome then [] else [.unknownSource site source]
  | .metBy (.named name) value | .during (.named name) value =>
    match g.names.lookup name with
    | some (.timeline i) =>
      -- a named timeline may also get the state from a fact
      if canHold g.timelines g.facts i value then [] else [.unknownState site name value]
    | _ => [.unknownTimeline site name]
  | .metBy (.anyOf className) value | .during (.anyOf className) value =>
    let members := g.timelines.filter fun t => t.className == some className
    if members.isEmpty then [.unknownTimelineClass site className]
    else if members.any fun t => (t.template? value).isSome then []
    else [.unknownClassState site className value]

/-- What is wrong with the open classes. -/
def openClassErrors (resources : List ResourceDef) (timelines : List TimelineDef)
    (classes : List String) : List LoadError :=
  classes.filterMap fun c =>
    if resources.any (·.className == c) || timelines.any (·.className == some c) then none
    else some (.unknownOpenClass c)

end Load

/-- Checks a problem and resolves it. -/
def Model.load (p : Problem) : Except (List LoadError) Model :=
  let resources := Load.resourceDefs p
  let declared := Load.timelineDefs p
  let (names, resourceErrors) := Load.enterResources [] 0 resources
  let (names, timelineErrors) := Load.enterTimelines names 0 declared
  let g := p.facts.foldl Load.addFact ⟨declared, names, [], []⟩
  let (goals, goalErrors) := Load.resolveGoals g p.goals
  let conditionErrors := g.timelines.flatMap fun t =>
    t.states.flatMap fun s => s.conditions.flatMap (Load.conditionErrors resources g t s.name)
  -- errors are reported phase by phase, all of them at once
  let errors := resourceErrors ++ timelineErrors ++ g.errors ++ goalErrors ++ conditionErrors
    ++ Load.openClassErrors resources g.timelines p.openClasses
  if errors.isEmpty then
    .ok ⟨resources, g.timelines, g.facts, goals, sortedNames p.openClasses, g.names⟩
  else .error errors

/-- Whether a problem can be loaded, and what is wrong with it if not. -/
def Problem.check (p : Problem) : Except (List LoadError) Unit := (Model.load p).map fun _ => ()

end TemporalPlanning
