import TemporalPlanning.Problem.Wire
import TemporalPlanning.Plan.Basic

/-!
# The written form of plans

Plans, failures and violations as JSON. An outcome is written as its plan or its failure alone; on
reading, a plan is tried first.
-/

namespace TemporalPlanning

namespace PlanToken

def toJson (t : PlanToken) : Json :=
  .object [("state", .text t.state), ("start", .int t.start), ("end", .int t.stop),
    ("bindings", .listOf ObjectRef.toJson t.bindings)]

def record : Record PlanToken where
  start := ⟨"", 0, 0, []⟩
  fields := [
    .required "state" .text fun state t => { t with state },
    .required "start" .int64 fun start t => { t with start },
    .required "end" .int64 fun stop t => { t with stop },
    .required "bindings" (.list ObjectRef.decoder) fun bindings t => { t with bindings }]

def decoder : Decoder PlanToken := record.read

end PlanToken

namespace PlanTimeline

def toJson (t : PlanTimeline) : Json :=
  .object [("name", .text t.name), ("tokens", .listOf PlanToken.toJson t.tokens)]

def record : Record PlanTimeline where
  start := ⟨"", []⟩
  fields := [
    .required "name" .text fun name t => { t with name },
    .required "tokens" (.list PlanToken.decoder) fun tokens t => { t with tokens }]

def decoder : Decoder PlanTimeline := record.read

end PlanTimeline

namespace Plan

def toJson (p : Plan) : Json := .object [("timelines", .listOf PlanTimeline.toJson p.timelines)]

def record : Record Plan where
  start := ⟨[]⟩
  fields := [.required "timelines" (.list PlanTimeline.decoder) fun timelines _ => ⟨timelines⟩]

def decoder : Decoder Plan := record.read

/-- The text of a plan. -/
def toText (p : Plan) : String := p.toJson.pretty

end Plan

namespace FailureStatus

def toJson : FailureStatus → Json
  | .exhausted => .text "exhausted"
  | .searchExhausted => .text "search_exhausted"

def decoder : Decoder FailureStatus :=
  .word [("exhausted", .exhausted), ("search_exhausted", .searchExhausted)]

end FailureStatus

namespace Failure

def toJson (f : Failure) : Json :=
  .object [("status", f.status.toJson), ("flaws_remaining", .listOf .text f.flawsRemaining)]

def record : Record Failure where
  start := ⟨.exhausted, []⟩
  fields := [
    .required "status" FailureStatus.decoder fun status f => { f with status },
    .required "flaws_remaining" (.list .text) fun flawsRemaining f => { f with flawsRemaining }]

def decoder : Decoder Failure := record.read

end Failure

namespace Outcome

def toJson : Outcome → Json
  | .solved plan => plan.toJson
  | .failed failure => failure.toJson

/-- Reads the whole value before it looks for a shape that fits. -/
def decoder : Decoder Outcome := fun d => do
  d.absorb Draft.nestingLimit
  match Plan.decoder d, Failure.decoder d with
  | .ok plan, _ => .ok (.solved plan)
  | .error _, .ok failure => .ok (.failed failure)
  | .error _, .error _ => .error .mismatched

end Outcome

namespace ViolationKind

/-- The kinds of violations with their names. -/
def words : List (String × ViolationKind) :=
  [("DurationOutOfBounds", .durationOutOfBounds), ("TimelineOverlap", .timelineOverlap),
    ("CapacityExceeded", .capacityExceeded), ("GoalMissing", .goalMissing),
    ("UnknownEntity", .unknownEntity)]

def toJson : ViolationKind → Json
  | .durationOutOfBounds => .text "DurationOutOfBounds"
  | .timelineOverlap => .text "TimelineOverlap"
  | .capacityExceeded => .text "CapacityExceeded"
  | .goalMissing => .text "GoalMissing"
  | .unknownEntity => .text "UnknownEntity"

def decoder : Decoder ViolationKind := .word words

end ViolationKind

namespace Violation

def toJson (v : Violation) : Json :=
  .object [("violation_type", v.kind.toJson), ("entity_id", .text v.entity),
    ("message", .text v.message)]

def record : Record Violation where
  start := ⟨.unknownEntity, "", ""⟩
  fields := [
    .required "violation_type" ViolationKind.decoder fun kind v => { v with kind },
    .required "entity_id" .text fun entity v => { v with entity },
    .required "message" .text fun message v => { v with message }]

def decoder : Decoder Violation := record.read

end Violation

end TemporalPlanning
