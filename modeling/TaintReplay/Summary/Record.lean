import TaintReplay.Flow
import TaintReplay.Json

/-!
# Records of summaries

A record holds the flows of one class. This module fixes its JSON form, by a
writer and a reader for each level: endpoints, flows, records. Absent values
and empty paths are not written, flags always are. The reader accepts more than
is written: members in any order, defaults left out, `null` for an absent value,
unknown members, and the positional form.
-/

namespace TaintReplay

/-! ## Gaps and field steps -/

namespace Gap

/-- Writes a gap. -/
def toJson (g : Gap) : Json := .obj [("signature", .str g.signature)]

/-- Reads a gap. -/
def ofJson? (v : Json) : Option Gap := do
  let ms ← v.members? ["signature"]
  let signature ← Json.required? ms "signature" Json.toStr?
  return ⟨signature⟩

end Gap

namespace FieldStep

/-- Writes a step. -/
def toJson (s : FieldStep) : Json := .obj [("field", .str s.field), ("type", .str s.type)]

/-- Reads a step. -/
def ofJson? (v : Json) : Option FieldStep := do
  let ms ← v.members? ["field", "type"]
  let field ← Json.required? ms "field" Json.toStr?
  let type ← Json.required? ms "type" Json.toStr?
  return ⟨field, type⟩

end FieldStep

/-! ## Endpoints -/

namespace Kind

/-- Writes a kind as its name. -/
def toJson (k : Kind) : Json := .str k.render

/-- Reads a kind from its name, which may also be the only member of a
structure whose value is `null`. -/
def ofJson? : Json → Option Kind
  | .str name => ofName? name
  | .obj [(name, .null)] => ofName? name
  | _ => none

end Kind

namespace Endpoint

/-- The members of an endpoint, in the order of the positional form. -/
def memberNames : List String :=
  ["type", "parameter_index", "base_type", "access_path", "taint_sub_fields", "gap"]

/-- Writes an endpoint. -/
def toJson (e : Endpoint) : Json :=
  .obj <|
    [("type", e.role.kind.toJson)] ++
    (e.role.index.map fun i => ("parameter_index", Json.int i)).toList ++
    [("base_type", .str e.base)] ++
    (if e.path.isEmpty then [] else [("access_path", .arr (e.path.map FieldStep.toJson))]) ++
    [("taint_sub_fields", .bool e.subFields)] ++
    (e.gap.map fun g => ("gap", g.toJson)).toList

/-- Reads an endpoint. -/
def ofJson? (v : Json) : Option Endpoint := do
  let ms ← v.members? memberNames
  let kind ← Json.required? ms "type" Kind.ofJson?
  let index ← Json.optional? ms "parameter_index" none (Json.toOption? Json.toWord?)
  let base ← Json.required? ms "base_type" Json.toStr?
  let path ← Json.optional? ms "access_path" [] (Json.toList? FieldStep.ofJson?)
  let subFields ← Json.optional? ms "taint_sub_fields" false Json.toBool?
  let gap ← Json.optional? ms "gap" none (Json.toOption? Gap.ofJson?)
  return ⟨⟨kind, index⟩, base, path, subFields, gap⟩

end Endpoint

/-! ## Flows and records -/

namespace Flow

/-- Writes a flow. -/
def toJson (f : Flow) : Json :=
  .obj [("method", .str f.method), ("source", f.source.toJson), ("sink", f.sink.toJson),
    ("is_alias", .bool f.isAlias)]

/-- Reads a flow. -/
def ofJson? (v : Json) : Option Flow := do
  let ms ← v.members? ["method", "source", "sink", "is_alias"]
  let method ← Json.required? ms "method" Json.toStr?
  let source ← Json.required? ms "source" Endpoint.ofJson?
  let sink ← Json.required? ms "sink" Endpoint.ofJson?
  let isAlias ← Json.optional? ms "is_alias" false Json.toBool?
  return ⟨method, source, sink, isAlias⟩

end Flow

/-- The flows of one class. -/
structure Record where
  className : String
  flows : List Flow
deriving DecidableEq

namespace Record

/-- Writes a record. -/
def toJson (r : Record) : Json :=
  .obj [("class_name", .str r.className), ("flows", .arr (r.flows.map Flow.toJson))]

/-- Reads a record. -/
def ofJson? (v : Json) : Option Record := do
  let ms ← v.members? ["class_name", "flows"]
  let className ← Json.required? ms "class_name" Json.toStr?
  let flows ← Json.optional? ms "flows" [] (Json.toList? Flow.ofJson?)
  return ⟨className, flows⟩

end Record

end TaintReplay
