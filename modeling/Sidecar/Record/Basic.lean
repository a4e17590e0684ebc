import Sidecar.Identity

/-! The metadata record of one content file. -/

namespace Sidecar

structure Artifact where
  /-- Relative to the root, with slashes. -/
  path : String
  sha256 : String
  mediaType : String
  deriving DecidableEq, Repr

structure Coverage where
  year : Option Int32
  effectiveFrom : Option String
  effectiveTo : Option String
  jurisdictions : Option (List String)
  deriving DecidableEq, Repr

structure Source where
  kind : String
  id : String
  revisionDate : String
  checksumSha256 : Option String
  deriving DecidableEq, Repr

structure Approval where
  role : String
  reference : String
  approvedAt : String
  name : Option String
  deriving DecidableEq, Repr

structure Record where
  schemaVersion : UInt32
  contentId : String
  domain : Domain
  artifact : Artifact
  coverage : Coverage
  source : Source
  approvals : List Approval
  deriving DecidableEq, Repr

def Approval.initial (approvedAt : String) (name : Option String) : Approval :=
  ⟨"ENGINEERING", "initial-metadata-standard", approvedAt, name⟩

structure RecordContext where
  domain : Domain
  revisionDate : String
  /-- Takes the place of the id derived from the content id. -/
  sourceId : Option String
  approver : Option String

namespace RecordContext

/-- An empty source id asks for the derived one. -/
def new (domain : Domain) (revisionDate : String) (sourceId approver : Option String) :
    RecordContext :=
  ⟨domain, revisionDate, sourceId.filter (· ≠ ""), approver⟩

def sourceIdFor (ctx : RecordContext) (contentId : String) : String :=
  ctx.sourceId.getD ("SRC_" ++ contentId)

end RecordContext

namespace Record

/-- The record of the file at `path`, known under the root as `relPath`, with a given checksum. -/
def assemble (ctx : RecordContext) (path : Path) (relPath sha256 : String) : Record :=
  let contentId := Identity.contentId ctx.domain relPath
  let year := Identity.inferYear path.stem
  { schemaVersion := 1
    contentId
    domain := ctx.domain
    artifact := ⟨relPath, sha256, Identity.mediaType path⟩
    coverage := ⟨year, Identity.effectiveFrom year, Identity.effectiveTo year, none⟩
    source :=
      ⟨"INTERNAL_OR_CURATED_SOURCE", ctx.sourceIdFor contentId, ctx.revisionDate, none⟩
    approvals := [.initial ctx.revisionDate ctx.approver] }

end Record

end Sidecar
