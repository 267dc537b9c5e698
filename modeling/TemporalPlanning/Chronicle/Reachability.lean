import TemporalPlanning.Problem.Basic

/-!
# Chains of states

A state that has to follow other states can stand on a timeline only at the end of a chain: its
predecessor is one of its sources, whose predecessor is one of that state's sources, and so on. The
chain closes at a state without sources or at a state that is on the timeline already. `canFollow`
decides whether some chain closes.
-/

namespace TemporalPlanning

namespace Reachability

/-- Goes through `frontier` from its front up to the first state with a template not gone through
yet, and lets `further` go on with the sources of that state put in front. -/
def expand (further : List StateTemplate → List String → List String)
    (unvisited : List StateTemplate) : (frontier : List String) → List String
  | [] => []
  | state :: frontier =>
    match unvisited.find? fun t => t.name == state with
    | none => state :: expand further unvisited frontier
    | some t => state :: further (unvisited.filter (·.name != state)) (t.sources ++ frontier)

/-- As `ancestors`, for at most `n` unvisited templates. -/
def ancestorsWithin : (n : Nat) → (unvisited : List StateTemplate) → (frontier : List String) →
    List String
  | 0, _, frontier => frontier
  | n + 1, unvisited, frontier => expand (ancestorsWithin n) unvisited frontier

/-- All states from which a chain leads to one of the states in `frontier`, the latter included.
`unvisited` are the templates not gone through yet; each state with sources uses one up. -/
def ancestors (unvisited : List StateTemplate) (frontier : List String) : List String :=
  ancestorsWithin unvisited.length unvisited frontier

/-- Whether a state is declared and has no sources. -/
def isOpening (states : List StateTemplate) (state : String) : Bool :=
  match states.find? fun t => t.name == state with
  | some t => t.sources.isEmpty
  | none => false

/-- Whether a chain to a state can begin with a state that follows nothing. -/
def isRooted (states : List StateTemplate) (t : StateTemplate) : Bool :=
  t.sources.isEmpty || (ancestors states t.sources).any (isOpening states)

end Reachability

/-- Whether a token of `state` can come right after a token of `previous`, or at the front of its
timeline, with tokens put before it as its chain needs them. -/
def canFollow (states : List StateTemplate) (state : String) (previous : Option String) : Bool :=
  states.any (fun t => t.name == state && Reachability.isRooted states t) ||
    match previous, states.reverse.find? fun t => t.name == state with
    | some p, some t => (Reachability.ancestors states t.sources).contains p
    | _, _ => false

end TemporalPlanning
