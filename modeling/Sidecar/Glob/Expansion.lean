import Sidecar.BytePath
import Sidecar.FileTree.Operations
import Sidecar.Glob.Matching

/-! The paths in a file tree that a pattern stands for, found by walking directories. Each component
of the pattern narrows the walk by one level and `**` lets it stay at any depth. A component without
metacharacters is not looked for among the names of a directory: the path is just tried, which is
how `.` and `..` come to be followed. -/

namespace Sidecar.Glob

structure Unlistable where
  directory : Path
  cause : OsError
  deriving DecidableEq, Repr

def Unlistable.message (u : Unlistable) : String :=
  "attempting to read `" ++ u.directory.text ++ "` resulted in an error: " ++ u.cause.message

structure Place where
  path : Path
  isDirectory : Bool

def Place.at (t : FileTree) (p : Path) : Place :=
  ⟨p, t.isDirectory p⟩

/-- Whether anything stands at a path, be it a link that leads nowhere. -/
def isThere (t : FileTree) (p : Path) : Bool :=
  (t.find .target p).isOk || (t.find .entry p).isOk

def leadsToDirectory (t : FileTree) (p : Path) : Entry → Bool
  | .link _ => t.isDirectory p
  | e => e.isDirectory

def room (p : Path) : Nat :=
  FileTree.maxPathBytes - p.text.utf8ByteSize

theorem room_child_le (p : Path) (name : String) : room (p.child name) ≤ room p := by
  have := p.utf8ByteSize_child name
  simp only [room]
  omega

theorem room_child_lt {t : FileTree} {p : Path} {found : List (String × Entry)}
    (h : t.list p = .ok found) {name : String} {e : Entry} (hm : (name, e) ∈ found) :
    room (p.child name) < room p := by
  have hs := p.utf8ByteSize_child name
  have hp := FileTree.utf8ByteSize_lt_of_list h
  have hn := FileTree.isEntryName_of_list h hm
  have : 0 < name.utf8ByteSize := by
    rcases Nat.eq_zero_or_pos name.utf8ByteSize with h0 | h0
    · exact absurd (String.utf8ByteSize_eq_zero_iff.mp h0) hn.1
    · exact h0
  simp only [room]
  omega

/-- The paths at and below a place that components lead to, in the order in which they are met. -/
def expand (t : FileTree) (onlyDirectories : Bool) (place : Place) :
    List Pattern → List (Except Unlistable Path)
  | [] => if onlyDirectories && !place.isDirectory then [] else [.ok place.path]
  | c :: rest =>
    match c.literal? with
    | some name =>
      let next := place.path.child name
      have := room_child_le place.path name
      let dots := name == "." || name == ".."
      if dots && place.isDirectory || !dots && isThere t next then
        expand t onlyDirectories (.at t next) rest
      else []
    | none =>
      if !place.isDirectory then []
      else match h : t.list place.path with
        | .error e => [.error ⟨place.path, e⟩]
        | .ok found =>
          let special (dots : String) : List (Except Unlistable Path) :=
            have := room_child_le place.path dots
            if c.opensWithDot && c.matches dots then
              expand t onlyDirectories (.at t (place.path.child dots)) rest
            else []
          special ".." ++ special "." ++ found.attach.flatMap fun ⟨(name, entry), hm⟩ =>
            have := room_child_lt h hm
            let path := place.path.child name
            let next : Place := ⟨path, leadsToDirectory t path entry⟩
            if c.isRecursive then
              (match rest with
              | [] => if next.isDirectory then expand t onlyDirectories next [] else []
              | d :: more =>
                if d.matches name then expand t onlyDirectories next more else []) ++
              (if next.isDirectory then expand t onlyDirectories next (c :: rest) else [])
            else if c.matches name then expand t onlyDirectories next rest
            else []
  termination_by components => (room place.path, components.length)
  decreasing_by
    all_goals
      simp only [Place.at, Prod.lex_def, List.length_cons]
      omega

/-- One `**` after another says no more than the last. -/
def collapse : List Pattern → List Pattern
  | [] => []
  | [c] => [c]
  | c :: d :: rest =>
    if c.isRecursive && d.isRecursive then collapse (d :: rest) else c :: collapse (d :: rest)

structure Route where
  components : List Pattern
  onlyDirectories : Bool

def Route.parse (full : String) : Except PatternError Route := do
  let _ ← Pattern.parse full
  let names := Text.piecesOf '/' (String.ofList full.toList.tail)
  let names := if names.getLast? = some "" then names.dropLast else names
  let components ← names.mapM Pattern.parse
  .ok ⟨collapse components, full.toList.getLast? == some '/'⟩

/-- The pattern, spelled from the root directory, for what a pattern means under `root`, or rather
under the path that `root` is shown as. Leading `./` say nothing. -/
def underRoot (root : BytePath) (pattern : String) : String :=
  let rootText := (root.shown.text.toList.reverse.dropWhile (· == '/')).reverse
  String.ofList (escape rootText) ++ "/" ++ String.ofList (withoutHere pattern.toList)
where
  withoutHere : List Char → List Char
    | '.' :: '/' :: cs => withoutHere cs
    | cs => cs

def Route.paths (r : Route) (t : FileTree) : Except Unlistable (List Path) :=
  ((expand t r.onlyDirectories (.at t ⟨"/"⟩) r.components).mapM id).map (·.mergeSort Path.le)

end Sidecar.Glob
