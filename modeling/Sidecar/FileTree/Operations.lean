import Sidecar.FileTree.Lookup

/-! Reading and changing a file tree by paths. -/

namespace Sidecar.FileTree

/-- The bytes of a file. A directory can be opened but not read. -/
def read (t : FileTree) (p : Path) : Except OsError ByteArray := do
  match ← t.find .target p with
  | .file content => .ok content
  | _ => .error .isADirectory

/-- The names in a directory with their entries, sorted by name. -/
def list (t : FileTree) (p : Path) : Except OsError (List (String × Entry)) := do
  let loc ← t.locate .target p
  match t.get? loc with
  | some .directory => .ok <| (t.namesIn loc).filterMap fun name =>
      (t.get? (name :: loc)).map (name, ·)
  | some _ => .error .notADirectory
  | none => .error .notFound

theorem utf8ByteSize_lt_of_locate {t : FileTree} {ending : Ending} {p : Path} {loc : Location}
    (h : t.locate ending p = .ok loc) : p.text.utf8ByteSize < maxPathBytes := by
  unfold locate at h
  split at h
  · simp at h
  next hlen =>
    by_cases hnul : '\x00' ∈ p.text.toList
    · simp [walkPath, hnul] at h
    · simp only [hnul, not_false_eq_true, true_and] at hlen
      omega

theorem list_eq_ok {t : FileTree} {p : Path} {found : List (String × Entry)}
    (h : t.list p = .ok found) : ∃ loc, t.locate .target p = .ok loc ∧
      t.get? loc = some .directory ∧
      found = (t.namesIn loc).filterMap fun name => (t.get? (name :: loc)).map (name, ·) := by
  unfold list at h
  cases hl : t.locate .target p with
  | error e => simp [hl, bind, Except.bind] at h
  | ok loc =>
    refine ⟨loc, rfl, ?_⟩
    simp only [hl, bind, Except.bind] at h
    split at h
    next hd => exact ⟨hd, by simpa [eq_comm] using h⟩
    all_goals simp at h

theorem utf8ByteSize_lt_of_list {t : FileTree} {p : Path} {found : List (String × Entry)}
    (h : t.list p = .ok found) : p.text.utf8ByteSize < maxPathBytes :=
  have ⟨_, hl, _⟩ := list_eq_ok h
  utf8ByteSize_lt_of_locate hl

theorem isEntryName_of_list {t : FileTree} {p : Path} {found : List (String × Entry)}
    (h : t.list p = .ok found) {name : String} {e : Entry} (hm : (name, e) ∈ found) :
    IsEntryName name := by
  obtain ⟨loc, _, _, rfl⟩ := list_eq_ok h
  obtain ⟨n, _, hn⟩ := List.mem_filterMap.mp hm
  obtain ⟨e', he, hp⟩ := Option.map_eq_some_iff.mp hn
  cases hp
  exact isEntryName_of_get? he

/-- The tree with the file at a path made or its bytes replaced. A link at the end of the path is
followed, also to a file that is not there yet. -/
def write (t : FileTree) (p : Path) (content : ByteArray) : Except OsError FileTree := do
  let loc ← t.locate .newFile p
  if h : t.Accepts loc then .ok (t.put loc (.file content) h) else .error .isADirectory

/-- Makes an entry where the path leads to nothing yet; its directory has to be there. -/
def make (t : FileTree) (p : Path) (e : Entry) : Except OsError FileTree := do
  match p.fileName? with
  | none => .error .alreadyExists
  | some name =>
    let above ← if p.directory.text = "" then pure t.workingDirectory
      else t.locate .target p.directory
    if maxNameBytes < name.utf8ByteSize then .error .nameTooLong
    else if t.get? (name :: above) ≠ none then .error .alreadyExists
    else if h : t.Accepts (name :: above) then .ok (t.put (name :: above) e h)
    else .error .notFound

def makeDirectories (t : FileTree) (p : Path) : Except OsError FileTree :=
  steps t ⟨""⟩ p.segments
where
  steps (t : FileTree) (done : Path) : List String → Except OsError FileTree
    | [] => .ok t
    | s :: rest => do
      let here := if done.text = "" ∧ s = "" then ⟨"/"⟩ else done.join s
      let t ← if t.isDirectory here then pure t else t.make here .directory
      steps t here rest

/-- Without what a path names: a file, a link (not where it leads) or a directory and all below. -/
def removeAll (t : FileTree) (p : Path) : Except OsError FileTree := do
  let loc ← t.locate .entry p
  .ok (t.remove loc)

end Sidecar.FileTree
