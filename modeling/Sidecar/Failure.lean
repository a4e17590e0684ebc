import Sidecar.Glob.Expansion

/-! Why a run ends without a report. -/

namespace Sidecar

inductive Failure where
  | invalidRoot (root : Path)
  | invalidPattern (pattern : String) (problem : Glob.PatternError)
  | unlistable (pattern : String) (problem : Glob.Unlistable)
  | outsideRoot (path root : Path)
  | unreadable (path : Path) (cause : OsError)
  | unwritable (path : Path) (cause : OsError)
  | sharedId (contentId : String) (paths : List String)
  deriving DecidableEq, Repr

namespace Failure

def message : Failure → String
  | .invalidRoot root => "Invalid root directory: " ++ root.text
  | .invalidPattern pattern problem =>
    "Invalid glob pattern '" ++ pattern ++ "': " ++ problem.message
  | .unlistable pattern problem =>
    "Failed to expand pattern '" ++ pattern ++ "': " ++ problem.message
  | .outsideRoot path root => "Path " ++ path.text ++ " is outside root " ++ root.text
  | .unreadable path cause => "Failed to read " ++ path.text ++ ": " ++ cause.message
  | .unwritable path cause => "Failed to write " ++ path.text ++ ": " ++ cause.message
  | .sharedId contentId paths =>
    "Content id " ++ contentId ++ " is derived from multiple files: " ++
      ", ".intercalate paths

/-- What the operating system said, where it had a say. -/
def cause? : Failure → Option String
  | .unlistable _ problem => some problem.message
  | .unreadable _ cause => some cause.message
  | .unwritable _ cause => some cause.message
  | _ => none

end Failure

end Sidecar
