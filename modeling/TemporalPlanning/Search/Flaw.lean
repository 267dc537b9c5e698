import TemporalPlanning.PartialPlan.Basic

/-!
# Flaws and decisions

A `Flaw` is what a partial plan still lacks: a token for a goal, support for a condition, an order
between reservations that compete for a resource. A `Decision` is one way to repair a flaw.
-/

namespace TemporalPlanning

/-- What is wrong with a partial plan. -/
inductive Flaw where
  /-- No token serves the goal. -/
  | openGoal (goal : Nat)
  /-- Nothing supports the condition. -/
  | openCondition (token : TokenId) (condition : Nat)
  /-- Reservations that exceed a capacity together are not ordered. -/
  | conflict (c : Conflict)
  deriving DecidableEq, Repr

/-- A way to repair a flaw. -/
inductive Decision where
  /-- An existing token serves the goal. -/
  | supportGoal (goal : Nat) (token : TokenId)
  /-- A new token at a place of the goal's timeline serves the goal. -/
  | insertGoal (goal : Nat) (position : Nat)
  /-- A condition gets units of an existing resource. -/
  | reserve (token : TokenId) (condition : Nat) (resource : ResourceId) (amount : Nat)
  /-- A condition gets units of a new resource. -/
  | createResource (token : TokenId) (condition : Nat) (className : String) (amount : Nat)
  /-- An existing token supports the condition. -/
  | link (token : TokenId) (condition : Nat) (supplier : TokenId) (relation : Relation)
  /-- A new token on an existing timeline supports the condition. -/
  | insertSupplier (token : TokenId) (condition : Nat) (timeline : TimelineId) (state : String)
      (position : Nat) (relation : Relation)
  /-- A new token on a new timeline supports the condition. -/
  | createTimeline (token : TokenId) (condition : Nat) (className state : String)
      (relation : Relation)
  /-- One reservation ends before another one starts. -/
  | order (before after : ReservationId)
  deriving DecidableEq, Repr

/-- A decision as messages write it. -/
def Decision.label : Decision → String
  | .supportGoal goal token => s!"goal {goal} <- {token.label}"
  | .insertGoal goal position => s!"goal {goal} <- new token at {position}"
  | .reserve token _ resource _ => s!"{token.label} reserves {resource.label}"
  | .createResource token _ className _ => s!"{token.label} reserves new {className}"
  | .link token _ supplier relation => s!"{token.label} {relation.label} {supplier.label}"
  | .insertSupplier token _ timeline state position relation =>
    s!"{token.label} {relation.label} new {state} on {timeline.label} at {position}"
  | .createTimeline token _ className state relation =>
    s!"{token.label} {relation.label} new {className} in {state}"
  | .order before after => s!"{before.label} before {after.label}"

end TemporalPlanning
