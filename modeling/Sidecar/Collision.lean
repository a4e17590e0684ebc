import Std.Data.HashMap
import Sidecar.Identity
import Sidecar.Selection

/-! Content ids that several files share. One pass over the files groups them by their ids; the
groups are then taken out in the order in which their ids first occurred. -/

namespace Sidecar

structure Collision where
  contentId : String
  paths : List String
  deriving DecidableEq, Repr

structure Groups where
  /-- The ids, in the order in which they first occurred. -/
  order : List String
  paths : Std.HashMap String (List String)

namespace Groups

def empty : Groups :=
  ⟨[], ∅⟩

def add (d : Domain) (g : Groups) (file : ResolvedFile) : Groups :=
  let id := Identity.contentId d file.relPath
  let before := g.paths.getD id []
  ⟨if before.isEmpty then g.order ++ [id] else g.order,
    g.paths.insert id (before ++ [file.relPath])⟩

/-- Takes the groups of the ids out one by one. A file that is alone in its group collides with
none. -/
def drain (paths : Std.HashMap String (List String)) : List String → List Collision
  | [] => []
  | id :: rest =>
    match paths[id]? with
    | none => drain paths rest
    | some group =>
      let more := drain (paths.erase id) rest
      if 1 < group.length then ⟨id, group⟩ :: more else more

end Groups

def collisions (d : Domain) (files : List ResolvedFile) : List Collision :=
  let groups := files.foldl (Groups.add d) .empty
  Groups.drain groups.paths groups.order

end Sidecar
