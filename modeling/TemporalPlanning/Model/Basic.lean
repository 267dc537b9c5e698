import TemporalPlanning.Problem.Basic

/-!
# Models

A `Model` is a problem whose references are resolved: every object has its name, facts and goals
point at timelines by index, and a name can be looked up. Timelines that only facts mention come
after the declared ones; they have no class and no states.
-/

namespace TemporalPlanning

/-- A resource with its name. -/
structure ResourceDef where
  name : String
  className : String
  capacity : Option Nat
  deriving DecidableEq, Repr

/-- A timeline with its name. One that only facts mention has no class. -/
structure TimelineDef where
  name : String
  className : Option String
  states : List StateTemplate
  deriving DecidableEq, Repr

/-- A state on a timeline, given by its index. -/
structure GroundRef where
  timeline : Nat
  state : String
  deriving DecidableEq, Repr

/-- What a name stands for. -/
inductive ObjectKey where
  | resource (index : Nat)
  | timeline (index : Nat)
  deriving DecidableEq, Repr

/-- A problem with all references resolved. -/
structure Model where
  resources : List ResourceDef
  /-- The declared timelines, then those that only facts mention. -/
  timelines : List TimelineDef
  facts : List GroundRef
  goals : List GroundRef
  /-- The classes of which a plan may create further objects, sorted and without repetition. -/
  openClasses : List String
  /-- What each name stands for; the first entry of a name counts. -/
  names : List (String × ObjectKey)

/-- The template of a state. -/
def TimelineDef.template? (t : TimelineDef) (state : String) : Option StateTemplate :=
  t.states.find? fun s => s.name == state

namespace Model

variable (m : Model)

/-- The index of the timeline of a name. -/
def timelineIndex? (name : String) : Option Nat :=
  match m.names.lookup name with
  | some (.timeline i) => some i
  | _ => none

/-- The index of the resource of a name. -/
def resourceIndex? (name : String) : Option Nat :=
  match m.names.lookup name with
  | some (.resource i) => some i
  | _ => none

/-- Whether any object has the name. -/
def hasObject (name : String) : Bool := (m.names.lookup name).isSome

/-- The indices of the timelines of a class, in order. -/
def timelinesOfClass (className : String) : List Nat :=
  (List.range m.timelines.length).filter fun i =>
    (m.timelines[i]?.bind (·.className)) == some className

/-- The indices of the resources of a class, in order. -/
def resourcesOfClass (className : String) : List Nat :=
  (List.range m.resources.length).filter fun i =>
    (m.resources[i]?.map (·.className)) == some className

/-- The first timeline of a class. -/
def firstTimeline? (className : String) : Option TimelineDef :=
  m.timelines.find? fun t => t.className == some className

/-- The first resource of a class. -/
def firstResource? (className : String) : Option ResourceDef :=
  m.resources.find? fun r => r.className == className

/-- Whether a plan may create further objects of the class. -/
def isOpen (className : String) : Bool := m.openClasses.contains className

/-- The facts of a timeline, in order. -/
def factsOn (timeline : Nat) : List GroundRef := m.facts.filter fun f => f.timeline == timeline

/-! ### Names of created objects -/

/-- The class in the name of an object that a plan created: what stands before the last underscore
if only digits, and at least one, follow it. -/
def classOfName? (name : String) : Option String :=
  let digits := name.toList.reverse.takeWhile (· ≠ '_')
  match name.toList.reverse.dropWhile (· ≠ '_') with
  | [] => none
  | _ :: className =>
    if !digits.isEmpty && digits.all Char.isDigit then some (String.ofList className.reverse)
    else none

/-- The declaration that a timeline of this name follows: its own, or that of its class. -/
def timelineTemplate? (name : String) : Option TimelineDef :=
  match m.timelineIndex? name with
  | some i => m.timelines[i]?
  | none => (classOfName? name).bind m.firstTimeline?

/-- The declaration that a resource of this name follows: its own, or that of its class. -/
def resourceTemplate? (name : String) : Option ResourceDef :=
  match m.resourceIndex? name with
  | some i => m.resources[i]?
  | none => (classOfName? name).bind m.firstResource?

end Model

end TemporalPlanning
