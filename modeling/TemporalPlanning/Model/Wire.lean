import TemporalPlanning.Problem.Wire
import TemporalPlanning.Model.Basic

/-!
# The written form of definitions

The named resources and timelines of a model, and its facts and goals, as JSON.
-/

namespace TemporalPlanning

namespace ResourceDef

def toJson (r : ResourceDef) : Json :=
  .object [("name", .text r.name), ("class", .text r.className),
    ("capacity", .option .nat r.capacity)]

def record : Record ResourceDef where
  start := ⟨"", "", none⟩
  fields := [
    .required "name" .text fun name r => { r with name },
    .required "class" .text fun className r => { r with className },
    .nullable "capacity" .nat32 fun capacity r => { r with capacity }]

def decoder : Decoder ResourceDef := record.read

end ResourceDef

namespace TimelineDef

def toJson (t : TimelineDef) : Json :=
  .object [("name", .text t.name), ("class", .option .text t.className),
    ("states", .listOf StateTemplate.toJson t.states)]

def record : Record TimelineDef where
  start := ⟨"", none, []⟩
  fields := [
    .required "name" .text fun name t => { t with name },
    .nullable "class" .text fun className t => { t with className },
    .required "states" (.list StateTemplate.decoder) fun states t => { t with states }]

def decoder : Decoder TimelineDef := record.read

end TimelineDef

namespace GroundRef

def toJson (g : GroundRef) : Json :=
  .object [("timeline", .nat g.timeline), ("value", .text g.state)]

def record : Record GroundRef where
  start := ⟨0, ""⟩
  fields := [
    .required "timeline" .nat64 fun timeline g => { g with timeline },
    .required "value" .text fun state g => { g with state }]

def decoder : Decoder GroundRef := record.read

end GroundRef

end TemporalPlanning
