import TemporalPlanning.Json.Decode
import TemporalPlanning.Json.Reader
import TemporalPlanning.Json.Printer
import TemporalPlanning.Problem.Basic

/-!
# The written form of problems

Every type of a problem has a function to JSON (`toJson`) and a reader (`decoder`) that takes what
the function writes, and the other spellings that the format allows. Open classes are left out when
there are none.
-/

namespace TemporalPlanning

/-- An object with a single field: a variant and its content. -/
def Json.variant (name : String) (content : Json) : Json := .object [(name, content)]

namespace ObjectRef

def toJson : ObjectRef → Json
  | .named name => .variant "Named" (.text name)
  | .anyOf className => .variant "AnyOfClass" (.text className)

def decoder : Decoder ObjectRef :=
  .tagged (fun _ => none) fun
    | "Named" => some fun d => (Decoder.text d).map .named
    | "AnyOfClass" => some fun d => (Decoder.text d).map .anyOf
    | _ => none

end ObjectRef

namespace Condition

def toJson : Condition → Json
  | .uses resource amount => .variant "UseResource" (.list [resource.toJson, .nat amount])
  | .follows state => .variant "TransitionFrom" (.text state)
  | .metBy timeline state => .variant "MetBy" (.list [timeline.toJson, .text state])
  | .during timeline state => .variant "During" (.list [timeline.toJson, .text state])

def decoder : Decoder Condition :=
  .tagged (fun _ => none) fun
    | "UseResource" => some fun d =>
      (Decoder.pair ObjectRef.decoder .nat32 d).map fun (r, n) => .uses r n
    | "TransitionFrom" => some fun d => (Decoder.text d).map .follows
    | "MetBy" => some fun d => (Decoder.pair ObjectRef.decoder .text d).map fun (r, s) => .metBy r s
    | "During" => some fun d =>
      (Decoder.pair ObjectRef.decoder .text d).map fun (r, s) => .during r s
    | _ => none

end Condition

namespace Relation

def toJson (r : Relation) : Json := .text r.label

def decoder : Decoder Relation :=
  .word [("Adjacent", .adjacent), ("MetBy", .metBy), ("During", .during)]

end Relation

namespace Duration

def toJson (d : Duration) : Json := .list [.int d.min, .option .int d.max]

def decoder : Decoder Duration := fun d =>
  (Decoder.pair .int64 (.option .int64) d).map fun (min, max) => ⟨min, max⟩

end Duration

namespace StateTemplate

def toJson (s : StateTemplate) : Json :=
  .object [("name", .text s.name), ("duration", s.duration.toJson),
    ("conditions", .listOf Condition.toJson s.conditions)]

def record : Record StateTemplate where
  start := ⟨"", .standard, []⟩
  fields := [
    .required "name" .text fun name s => { s with name },
    .defaulted "duration" Duration.decoder fun duration s => { s with duration },
    .defaulted "conditions" (.list Condition.decoder) fun conditions s => { s with conditions }]

def decoder : Decoder StateTemplate := record.read

end StateTemplate

namespace ResourceSpec

def toJson (r : ResourceSpec) : Json :=
  .object [("class", .text r.className), ("name", .option .text r.name),
    ("capacity", .option .nat r.capacity)]

def record : Record ResourceSpec where
  start := ⟨"", none, none⟩
  fields := [
    .required "class" .text fun className r => { r with className },
    .defaulted "name" (.option .text) fun name r => { r with name },
    .defaulted "capacity" (.option .nat32) fun capacity r => { r with capacity }]

def decoder : Decoder ResourceSpec := record.read

end ResourceSpec

namespace TimelineSpec

def toJson (t : TimelineSpec) : Json :=
  .object [("class", .text t.className), ("name", .option .text t.name),
    ("states", .listOf StateTemplate.toJson t.states)]

def record : Record TimelineSpec where
  start := ⟨"", none, []⟩
  fields := [
    .required "class" .text fun className t => { t with className },
    .defaulted "name" (.option .text) fun name t => { t with name },
    .defaulted "states" (.list StateTemplate.decoder) fun states t => { t with states }]

def decoder : Decoder TimelineSpec := record.read

end TimelineSpec

namespace Statement

def toJson (s : Statement) : Json :=
  .object [("timeline_name", .text s.timeline), ("value", .text s.state)]

def record : Record Statement where
  start := ⟨"", ""⟩
  fields := [
    .required "timeline_name" .text fun timeline s => { s with timeline },
    .required "value" .text fun state s => { s with state }]

def decoder : Decoder Statement := record.read

end Statement

namespace Problem

def toJson (p : Problem) : Json :=
  .object <|
    [("resources", .listOf ResourceSpec.toJson p.resources),
      ("timelines", .listOf TimelineSpec.toJson p.timelines),
      ("facts", .listOf Statement.toJson p.facts),
      ("goals", .listOf Statement.toJson p.goals)]
    ++ if p.openClasses.isEmpty then [] else [("open_classes", .listOf .text p.openClasses)]

def record : Record Problem where
  start := {}
  fields := [
    .defaulted "resources" (.list ResourceSpec.decoder) fun resources p => { p with resources },
    .defaulted "timelines" (.list TimelineSpec.decoder) fun timelines p => { p with timelines },
    .defaulted "facts" (.list Statement.decoder) fun facts p => { p with facts },
    .defaulted "goals" (.list Statement.decoder) fun goals p => { p with goals },
    .defaulted "open_classes" (.list .text) fun openClasses p => { p with openClasses }]

def decoder : Decoder Problem := record.read

/-- A problem from its text. -/
def ofText (text : String) : Except Reject Problem := (Document.ofText text).decode decoder

/-- The text of a problem. -/
def toText (p : Problem) : String := p.toJson.pretty

end Problem

end TemporalPlanning
