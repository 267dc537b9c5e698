import TemporalPlanning.Model.Basic
import TemporalPlanning.Plan.Basic
import TemporalPlanning.SortedNames
import TemporalPlanning.Usage

/-!
# Verification of plans

`Plan.violations` goes through a plan entry by entry and lists the rules of the model that it
breaks: tokens of unknown timelines or states, durations out of bounds, tokens of one entry that
overlap, then resources in the order of their names, and at last goals without token. Objects that
the model does not name are judged by the declaration of their class.
-/

namespace TemporalPlanning

/-- The units of named resources that a token takes: its bindings belong to the conditions of its
state in order. -/
def PlanToken.uses (t : PlanToken) (state : StateTemplate) : List (String × Usage) :=
  (state.conditions.zip t.bindings).filterMap fun
    | (.uses _ amount, .named name) => some (name, ⟨t.start, t.stop, amount⟩)
    | _ => none

namespace Violation

def unknownTimeline (name : String) : Violation :=
  ⟨.unknownEntity, name, s!"Plan contains unknown timeline '{name}'"⟩

def unknownState (timeline state : String) : Violation :=
  ⟨.unknownEntity, timeline, s!"Token '{timeline}.{state}' has no state template"⟩

def duration (timeline : String) (t : PlanToken) (allowed : Duration) : Violation :=
  ⟨.durationOutOfBounds, timeline,
    s!"Token '{timeline}.{t.state}' {t.interval} lasts {t.duration} outside {allowed.label}"⟩

def overlap (timeline : String) (t u : PlanToken) : Violation :=
  ⟨.timelineOverlap, timeline,
    s!"Tokens '{t.state}' {t.interval} and '{u.state}' {u.interval} overlap"⟩

def unknownResource (name : String) : Violation :=
  ⟨.unknownEntity, name, s!"Plan binds unknown resource '{name}'"⟩

def capacity (name : String) (peak capacity : Nat) : Violation :=
  ⟨.capacityExceeded, name, s!"Resource '{name}' peaks at {peak} > {capacity}"⟩

def missingGoal (timeline state : String) : Violation :=
  ⟨.goalMissing, timeline, s!"Goal '{timeline}.{state}' has no token"⟩

end Violation

namespace Verify

/-- The violations of a token, and the resources that it takes. -/
def token (entry : String) (t : TimelineDef) (tok : PlanToken) :
    List Violation × List (String × Usage) :=
  match t.template? tok.state, t.className with
  | none, some _ => ([.unknownState entry tok.state], [])
  | state?, _ =>
    let allowed := (state?.map (·.duration)).getD .standard
    (if allowed.contains tok.duration then [] else [.duration entry tok allowed],
      (state?.map tok.uses).getD [])

/-- The pairs of tokens that overlap. -/
def overlaps (entry : String) : List PlanToken → List Violation
  | [] => []
  | t :: rest =>
    rest.filterMap (fun u => if t.overlaps u then some (.overlap entry t u) else none)
    ++ overlaps entry rest

/-- The violations of an entry of a plan, and the resources that it takes. -/
def entry (m : Model) (e : PlanTimeline) : List Violation × List (String × Usage) :=
  match m.timelineTemplate? e.name with
  | none => ([.unknownTimeline e.name], [])
  | some t =>
    let found := e.tokens.map (token e.name t)
    (found.flatMap (·.1) ++ overlaps e.name e.tokens, found.flatMap (·.2))

/-- The violations of a resource that is taken as listed. -/
def resource (m : Model) (uses : List (String × Usage)) (name : String) : List Violation :=
  match m.resourceTemplate? name with
  | none => [.unknownResource name]
  | some r =>
    match r.capacity with
    -- without a capacity there is nothing to exceed
    | none => []
    | some capacity =>
      let peak := Usage.peak ((uses.filter (·.1 == name)).map (·.2))
      if capacity < peak then [.capacity name peak capacity] else []

/-- The violation of a goal that has no token. -/
def goal (m : Model) (p : Plan) (g : GroundRef) : List Violation :=
  match m.timelines[g.timeline]? with
  | none => []
  | some t => if (p.tokensOf t.name g.state).isEmpty then [.missingGoal t.name g.state] else []

end Verify

/-- The rules of a model that a plan breaks. -/
def Plan.violations (m : Model) (p : Plan) : List Violation :=
  let found := p.timelines.map (Verify.entry m)
  let uses := found.flatMap (·.2)
  found.flatMap (·.1)
  ++ (sortedNames (uses.map (·.1))).flatMap (Verify.resource m uses)
  ++ m.goals.flatMap (Verify.goal m p)

end TemporalPlanning
