import Sidecar.Json.Basic
import Sidecar.Record.Basic

/-! The shapes of the parts of a record: which values each has and what JSON it takes. Reading,
writing and spelling a record are each defined once, by recursion on its shape. -/

namespace Sidecar

mutual

inductive Shape where
  | text
  | unsigned32
  | signed32
  | domain
  | optional (inner : Shape)
  | list (item : Shape)
  | record (name : String) (fields : Fields)

inductive Fields where
  | nil
  | cons (name : String) (shape : Shape) (rest : Fields)

end

mutual

@[reducible] def Shape.Value : Shape → Type
  | .text => String
  | .unsigned32 => UInt32
  | .signed32 => Int32
  | .domain => Domain
  | .optional inner => Option inner.Value
  | .list item => List item.Value
  | .record _ fields => fields.Values

@[reducible] def Fields.Values : Fields → Type
  | .nil => Unit
  | .cons _ shape rest => shape.Value × rest.Values

end

namespace Fields

def names : Fields → List String
  | .nil => []
  | .cons name _ rest => name :: rest.names

/-- Values for some of the fields. -/
@[reducible] def Partial : Fields → Type
  | .nil => Unit
  | .cons _ shape rest => Option shape.Value × rest.Partial

def nothing : (fields : Fields) → fields.Partial
  | .nil => ()
  | .cons _ _ rest => (none, rest.nothing)

end Fields

mutual

/-- The JSON value of a value; the members of a record are sorted by their keys. -/
def Shape.toJson : (shape : Shape) → shape.Value → Json
  | .text, s => .text s
  | .unsigned32, n => .integer n.toNat
  | .signed32, n => .integer n.toInt
  | .domain, d => .text d.name
  | .optional _, none => .null
  | .optional inner, some v => inner.toJson v
  | .list item, vs => .array (vs.map item.toJson)
  | .record _ fields, vs => .object ((fields.toMembers vs).mergeSort fun a b => a.1 ≤ b.1)

def Fields.toMembers : (fields : Fields) → fields.Values → List (String × Json)
  | .nil, _ => []
  | .cons name shape rest, (v, vs) => (name, shape.toJson v) :: rest.toMembers vs

end

namespace Artifact

def fields : Fields :=
  .cons "path" .text <| .cons "sha256" .text <| .cons "mediaType" .text .nil

def shape : Shape := .record "Artifact" fields

def toValues (a : Artifact) : fields.Values :=
  (a.path, a.sha256, a.mediaType, ())

def ofValues : fields.Values → Artifact
  | (path, sha256, mediaType, _) => ⟨path, sha256, mediaType⟩

end Artifact

namespace Coverage

def fields : Fields :=
  .cons "year" (.optional .signed32) <| .cons "effectiveFrom" (.optional .text) <|
    .cons "effectiveTo" (.optional .text) <|
      .cons "jurisdictions" (.optional (.list .text)) .nil

def shape : Shape := .record "Coverage" fields

def toValues (c : Coverage) : fields.Values :=
  (c.year, c.effectiveFrom, c.effectiveTo, c.jurisdictions, ())

def ofValues : fields.Values → Coverage
  | (year, effectiveFrom, effectiveTo, jurisdictions, _) =>
    ⟨year, effectiveFrom, effectiveTo, jurisdictions⟩

end Coverage

namespace Source

def fields : Fields :=
  .cons "kind" .text <| .cons "id" .text <| .cons "revisionDate" .text <|
    .cons "checksumSha256" (.optional .text) .nil

def shape : Shape := .record "Source" fields

def toValues (s : Source) : fields.Values :=
  (s.kind, s.id, s.revisionDate, s.checksumSha256, ())

def ofValues : fields.Values → Source
  | (kind, id, revisionDate, checksumSha256, _) => ⟨kind, id, revisionDate, checksumSha256⟩

end Source

namespace Approval

def fields : Fields :=
  .cons "role" .text <| .cons "reference" .text <| .cons "approvedAt" .text <|
    .cons "name" (.optional .text) .nil

def shape : Shape := .record "Approval" fields

def toValues (a : Approval) : fields.Values :=
  (a.role, a.reference, a.approvedAt, a.name, ())

def ofValues : fields.Values → Approval
  | (role, reference, approvedAt, name, _) => ⟨role, reference, approvedAt, name⟩

end Approval

namespace Record

def fields : Fields :=
  .cons "schemaVersion" .unsigned32 <| .cons "contentId" .text <| .cons "domain" .domain <|
    .cons "artifact" Artifact.shape <| .cons "coverage" Coverage.shape <|
      .cons "source" Source.shape <| .cons "approvals" (.list Approval.shape) .nil

def shape : Shape := .record "ContentMetadata" fields

def toValues (r : Record) : fields.Values :=
  (r.schemaVersion, r.contentId, r.domain, r.artifact.toValues, r.coverage.toValues,
    r.source.toValues, r.approvals.map Approval.toValues, ())

def ofValues : fields.Values → Record
  | (schemaVersion, contentId, domain, artifact, coverage, source, approvals, _) =>
    ⟨schemaVersion, contentId, domain, .ofValues artifact, .ofValues coverage, .ofValues source,
      approvals.map Approval.ofValues⟩

theorem ofValues_toValues (r : Record) : ofValues r.toValues = r := by
  have h : (r.approvals.map Approval.toValues).map Approval.ofValues = r.approvals := by
    rw [List.map_map, show Approval.ofValues ∘ Approval.toValues = id from rfl, List.map_id]
  show Record.mk _ _ _ _ _ _ ((r.approvals.map Approval.toValues).map Approval.ofValues) = r
  rw [h]
  rfl

/-- The text of a sidecar. -/
def render (r : Record) : String :=
  (shape.toJson r.toValues).prettyText ++ "\n"

end Record

end Sidecar
