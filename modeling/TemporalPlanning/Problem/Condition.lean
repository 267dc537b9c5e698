import TemporalPlanning.Handle

/-!
# Conditions

A condition is what a state asks for whenever it occurs: units of a resource for as long as it
lasts, a certain state right before it on its own timeline, or a state of another timeline that ends
when it starts or that covers it. The object that a condition refers to is named, or left open as
any member of a class.
-/

namespace TemporalPlanning

/-- A reference to a resource or a timeline. -/
inductive ObjectRef where
  /-- The object of this name. -/
  | named (name : String)
  /-- Any object of this class. -/
  | anyOf (className : String)
  deriving DecidableEq, Repr

/-- What a state asks for. -/
inductive Condition where
  /-- So many units of a resource, for the whole occurrence. -/
  | uses (resource : ObjectRef) (amount : Nat)
  /-- The occurrence before it on the same timeline is of this state and ends when it starts. -/
  | follows (state : String)
  /-- An occurrence of this state on the timeline ends exactly when it starts. -/
  | metBy (timeline : ObjectRef) (state : String)
  /-- An occurrence of this state on the timeline covers it. -/
  | during (timeline : ObjectRef) (state : String)
  deriving DecidableEq, Repr

/-- How an occurrence relates to the occurrence that supports it. -/
inductive Relation where
  /-- The supporter comes right before, with nothing in between, on the same timeline. -/
  | adjacent
  /-- The supporter ends when it starts. -/
  | metBy
  /-- The supporter covers it. -/
  | during
  deriving DecidableEq, Repr

/-- The relation that a condition asks for; resources are no occurrences. -/
def Condition.relation? : Condition → Option Relation
  | .uses _ _ => none
  | .follows _ => some .adjacent
  | .metBy _ _ => some .metBy
  | .during _ _ => some .during

/-- The state that a condition wants right before. -/
def Condition.source? : Condition → Option String
  | .follows state => some state
  | _ => none

/-! ### How they are written in messages -/

def ObjectRef.label : ObjectRef → String
  | .named name => name
  | .anyOf className => "any " ++ className

def Condition.label : Condition → String
  | .uses resource amount => s!"use {amount} of {resource.label}"
  | .follows state => s!"transition from {state}"
  | .metBy timeline state => s!"met by {timeline.label}.{state}"
  | .during timeline state => s!"during {timeline.label}.{state}"

def Relation.label : Relation → String
  | .adjacent => "Adjacent"
  | .metBy => "MetBy"
  | .during => "During"

/-! ### Durations -/

/-- How long an occurrence may last. -/
structure Duration where
  min : Int
  /-- The longest duration, if there is one. -/
  max : Option Int
  deriving DecidableEq, Repr

namespace Duration

/-- The largest bound that a state may declare, `2 ^ 40`. Sums of such bounds along long chains of
tokens stay far below the distances' ceiling. -/
def limit : Int := 1099511627776

def atLeast (min : Int) : Duration := ⟨min, none⟩

def between (min max : Int) : Duration := ⟨min, some max⟩

def exactly (d : Int) : Duration := ⟨d, some d⟩

/-- The duration of a state that declares none: any that is positive. -/
def standard : Duration := atLeast 1

/-- Whether the bounds are in order and within the limit. -/
def isValid (d : Duration) : Bool :=
  0 ≤ d.min && d.min ≤ limit &&
    match d.max with
    | none => true
    | some max => d.min ≤ max && max ≤ limit

/-- Whether a length lies within the bounds. -/
def contains (d : Duration) (length : Int) : Bool :=
  d.min ≤ length &&
    match d.max with
    | none => true
    | some max => length ≤ max

/-- The bounds as messages write them. -/
def label (d : Duration) : String := s!"DurationBounds({d.min}, {boundLabel d.max})"

end Duration

end TemporalPlanning
