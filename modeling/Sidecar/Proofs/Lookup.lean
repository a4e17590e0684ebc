import Sidecar.Proofs.Naming

/-! Looking up paths where no link is on the way. The walk then ends at the location that the path
spells, and what it answers depends only on the entries at and above that location. -/

namespace Sidecar

namespace FileTree

theorem get?_above {t : FileTree} {below above : Location} {e : Entry}
    (h : t.get? (below ++ above) = some e) (hne : below ≠ []) :
    t.get? above = some .directory := by
  induction below generalizing e with
  | nil => contradiction
  | cons name rest ih =>
    have hparent : t.get? (rest ++ above) = some .directory := get?_parent h
    cases rest with
    | nil => exact hparent
    | cons => exact ih hparent (by simp)

theorem get?_of_suffix {t : FileTree} {loc above : Location}
    (h : t.get? loc = some .directory) (hs : above <:+ loc) : t.get? above = some .directory := by
  obtain ⟨below, rfl⟩ := hs
  cases below with
  | nil => exact h
  | cons => exact get?_above h (by simp)

theorem get?_of_suffix_tail {t : FileTree} {loc l : Location} (h : (t.get? loc).isSome = true)
    (hs : l <:+ loc.tail) : t.get? l = some .directory := by
  have ⟨e, he⟩ := Option.isSome_iff_exists.mp h
  cases loc with
  | nil =>
    rw [List.suffix_nil.mp hs]
    rfl
  | cons n above => exact get?_of_suffix (get?_parent he) hs

theorem isEntryName_of_mem {t : FileTree} {loc : Location} {e : Entry} (h : t.get? loc = some e)
    {name : String} (hn : name ∈ loc) : IsEntryName name := by
  obtain ⟨below, above, rfl⟩ := List.append_of_mem hn
  cases below with
  | nil => exact isEntryName_of_get? h
  | cons m ms =>
    have : t.get? (name :: above) = some .directory := get?_above h (by simp)
    exact isEntryName_of_get? this

/-- The path of an entry's location spells the location. -/
theorem spells_pathOf_of_get? {t : FileTree} {loc : Location} {e : Entry}
    (h : t.get? loc = some e) : (⟨pathOf loc⟩ : Path).Spells loc :=
  spells_pathOf fun _ hn =>
    have ⟨h1, h2, h3, h4, _⟩ := isEntryName_of_mem h hn
    ⟨h1, h2, h3, h4⟩

theorem child_pathOf_of_get? {t : FileTree} {loc : Location} {e : Entry} (h : t.get? loc = some e)
    (name : String) : (⟨pathOf loc⟩ : Path).child name = ⟨pathOf (name :: loc)⟩ :=
  child_pathOf (fun _ hn =>
    have ⟨h1, _, _, h4, _⟩ := isEntryName_of_mem h hn
    ⟨h1, h4⟩) name

/-- No link stands at a location or above it. -/
def LinkFreeAlong (t : FileTree) (loc : Location) : Prop :=
  ∀ l target, l <:+ loc → t.get? l ≠ some (.link target)

/-- Two trees hold the same entries at a location and above it. -/
def AgreeAlong (t u : FileTree) (loc : Location) : Prop :=
  ∀ l, l <:+ loc → u.get? l = t.get? l

/-- No link stands anywhere. -/
def LinkFree (t : FileTree) : Prop :=
  ∀ loc target, t.get? loc ≠ some (.link target)

theorem linkFree_empty : empty.LinkFree := by
  intro loc target
  cases loc with
  | nil => simp [get?]
  | cons => simp [get?, empty]

theorem LinkFree.put {t : FileTree} (h : t.LinkFree) {loc : Location} {e : Entry}
    (he : ∀ target, e ≠ .link target) (accepts : t.Accepts loc) :
    (t.put loc e accepts).LinkFree := by
  intro other target
  by_cases heq : other = loc
  · rw [heq, get?_put_self]
    exact fun h => he target (Option.some.inj h)
  · rw [get?_put_of_ne accepts heq]
    exact h other target

/-- A tree of one file. -/
def oneFile : FileTree :=
  put .empty ["a"] (.file "x".toUTF8) (by decide)

theorem linkFree_oneFile : oneFile.LinkFree :=
  linkFree_empty.put (by simp) _

theorem LinkFree.below {t : FileTree} (h : t.LinkFree) (root : Location) :
    t.LinkFreeBelow root :=
  fun loc target _ => h loc target

theorem linkFreeAlong_of_get? {t : FileTree} {loc : Location} {e : Entry}
    (h : t.get? loc = some e) (he : ∀ target, e ≠ .link target) : t.LinkFreeAlong loc := by
  intro l target hs hl
  obtain ⟨below, rfl⟩ := hs
  cases below with
  | nil =>
    rw [List.nil_append, hl] at h
    exact he target (Option.some.inj h).symm
  | cons =>
    rw [get?_above h (by simp)] at hl
    simp at hl

theorem LinkFreeBelow.along {t : FileTree} {root : Location} (h : t.LinkFreeBelow root)
    (hroot : t.get? root = some .directory) (below : Location) :
    t.LinkFreeAlong (below ++ root) := by
  intro l target hs
  rcases List.suffix_or_suffix_of_suffix hs (List.suffix_append below root) with habove | hbelow
  · rw [get?_of_suffix hroot habove]
    simp
  · exact h l target hbelow

/-- Where an entry stands in both trees, they agree on all that is above it. -/
theorem agreeAlong_of_isSome {t u : FileTree} {loc : Location} (ht : (t.get? loc).isSome = true)
    (h : u.get? loc = t.get? loc) : AgreeAlong t u loc := by
  intro l hs
  cases loc with
  | nil =>
    rw [List.suffix_nil.mp hs]
    rfl
  | cons n above =>
    cases List.suffix_cons_iff.mp hs with
    | inl heq => rw [heq, h]
    | inr habove =>
      rw [get?_of_suffix_tail ht habove, get?_of_suffix_tail (h ▸ ht) habove]

theorem suffix_plain_cons {s : String} {rest : List String} (place : Location)
    (h : ¬(s = "" ∨ s = ".")) :
    (Path.plain (s :: rest)).reverse ++ place = (Path.plain rest).reverse ++ (s :: place) := by
  rw [Path.plain_cons_name rest h, List.reverse_cons, List.append_assoc, List.singleton_append]

theorem walk_cons_void (t : FileTree) (ending : Ending) (links : Nat) (place : Location)
    {s : String} (rest : List String) (h : s = "" ∨ s = ".") :
    t.walk ending links place (s :: rest) = t.walk ending links place rest := by
  rw [walk, if_pos h]

/-- A walk that succeeds goes on through a directory or stops at the last name. -/
theorem walk_cons_name {t : FileTree} {ending : Ending} {links : Nat} {place loc : Location}
    {s : String} {rest : List String} (hvoid : ¬(s = "" ∨ s = ".")) (hup : s ≠ "..")
    (hlink : ∀ target, t.get? (s :: place) ≠ some (.link target))
    (h : t.walk ending links place (s :: rest) = .ok loc) :
    s.utf8ByteSize ≤ maxNameBytes ∧
      (t.get? (s :: place) = some .directory ∧ t.walk ending links (s :: place) rest = .ok loc ∨
        t.get? (s :: place) ≠ some .directory ∧ rest = [] ∧ loc = s :: place) := by
  rw [walk, if_neg hvoid, if_neg hup] at h
  split at h
  · contradiction
  split at h
  · contradiction
  next hlen =>
    refine ⟨Nat.not_lt.mp hlen, ?_⟩
    split at h
    next hnone =>
      split at h
      next hlast => exact .inr ⟨by simp [hnone], hlast.2, (Except.ok.inj h).symm⟩
      next => contradiction
    next hdir => exact .inl ⟨hdir, h⟩
    next hfile =>
      split at h
      next hlast => exact .inr ⟨by simp [hfile], hlast, (Except.ok.inj h).symm⟩
      next => contradiction
    next target htarget => exact absurd htarget (hlink target)

theorem walk_location {t : FileTree} {ending : Ending} {links : Nat} {segments : List String}
    {place loc : Location} (hfree : t.LinkFreeAlong ((Path.plain segments).reverse ++ place))
    (hup : ".." ∉ segments) (h : t.walk ending links place segments = .ok loc) :
    loc = (Path.plain segments).reverse ++ place := by
  induction segments generalizing place with
  | nil =>
    rw [walk] at h
    exact (Except.ok.inj h).symm
  | cons s rest ih =>
    rw [List.mem_cons, not_or] at hup
    by_cases hvoid : s = "" ∨ s = "."
    · rw [walk_cons_void _ _ _ _ _ hvoid] at h
      rw [Path.plain_cons_void rest hvoid] at hfree ⊢
      exact ih hfree hup.2 h
    · rw [suffix_plain_cons place hvoid] at hfree ⊢
      have hlink (target : String) := hfree (s :: place) target (List.suffix_append _ _)
      cases (walk_cons_name hvoid (Ne.symm hup.1) hlink h).2 with
      | inl hdown => exact ih hfree hup.2 hdown.2
      | inr hstop =>
        rw [hstop.2.1]
        exact hstop.2.2

theorem walk_congr {t u : FileTree} {ending : Ending} {links : Nat} {segments : List String}
    {place : Location} (hfree : t.LinkFreeAlong ((Path.plain segments).reverse ++ place))
    (hagree : AgreeAlong t u ((Path.plain segments).reverse ++ place)) (hup : ".." ∉ segments) :
    u.walk ending links place segments = t.walk ending links place segments := by
  induction segments generalizing place with
  | nil => rw [walk, walk]
  | cons s rest ih =>
    rw [List.mem_cons, not_or] at hup
    by_cases hvoid : s = "" ∨ s = "."
    · rw [Path.plain_cons_void rest hvoid] at hfree hagree
      rw [walk_cons_void _ _ _ _ _ hvoid, walk_cons_void _ _ _ _ _ hvoid]
      exact ih hfree hagree hup.2
    · rw [suffix_plain_cons place hvoid] at hfree hagree
      have hs := hagree _ (List.suffix_append _ (s :: place))
      rw [walk, walk, if_neg hvoid, if_neg hvoid, if_neg (Ne.symm hup.1), if_neg (Ne.symm hup.1),
        hs, ih hfree hagree hup.2]
      cases hg : t.get? (s :: place) with
      | none => rfl
      | some e =>
        cases e with
        | directory | file => rfl
        | link target => exact absurd hg (hfree _ target (List.suffix_append _ _))

/-- A walk goes through directories without a stop. -/
theorem walk_append {t : FileTree} {ending : Ending} (links : Nat) {xs ys : List String}
    {place : Location} (hdir : t.get? ((Path.plain xs).reverse ++ place) = some .directory)
    (hup : ".." ∉ xs) (hys : ending ≠ .newFile ∨ ∃ y ∈ ys, y ≠ "") :
    t.walk ending links place (xs ++ ys) =
      t.walk ending links ((Path.plain xs).reverse ++ place) ys := by
  induction xs generalizing place with
  | nil => rfl
  | cons s rest ih =>
    rw [List.mem_cons, not_or] at hup
    by_cases hvoid : s = "" ∨ s = "."
    · rw [Path.plain_cons_void rest hvoid] at hdir ⊢
      rw [List.cons_append, walk_cons_void _ _ _ _ _ hvoid]
      exact ih hdir hup.2
    · rw [suffix_plain_cons place hvoid] at hdir ⊢
      have hs : t.get? (s :: place) = some .directory :=
        get?_of_suffix hdir (List.suffix_append _ _)
      have hlen : ¬maxNameBytes < s.utf8ByteSize :=
        Nat.not_lt.mpr (isEntryName_of_get? hs).2.2.2.2.2
      have hfile : ¬(ending = .newFile ∧ rest ++ ys ≠ [] ∧ (rest ++ ys).all (· = "") = true) := by
        intro ⟨hnew, _, hall⟩
        have ⟨y, hy, hne⟩ := hys.resolve_left (not_not_intro hnew)
        have := List.all_eq_true.mp hall y (List.mem_append_right _ hy)
        exact hne (by simpa using this)
      rw [List.cons_append, walk, if_neg hvoid, if_neg (Ne.symm hup.1), if_neg hfile, if_neg hlen,
        hs]
      exact ih hdir hup.2

/-- A path that a file was made at leads to that file. -/
theorem walk_target_of_newFile {t u : FileTree} {links : Nat} {segments : List String}
    {place loc : Location} {content : ByteArray}
    (hfree : t.LinkFreeAlong ((Path.plain segments).reverse ++ place)) (hup : ".." ∉ segments)
    (h : t.walk .newFile links place segments = .ok loc) (hfile : u.get? loc = some (.file content))
    (hother : ∀ l, l <:+ loc → l ≠ loc → u.get? l = t.get? l)
    (hdir : t.get? loc ≠ some .directory) :
    u.walk .target links place segments = .ok loc := by
  have hloc := walk_location hfree hup h
  induction segments generalizing place with
  | nil =>
    rw [walk] at h ⊢
    exact h
  | cons s rest ih =>
    rw [List.mem_cons, not_or] at hup
    by_cases hvoid : s = "" ∨ s = "."
    · rw [walk_cons_void _ _ _ _ _ hvoid] at h ⊢
      rw [Path.plain_cons_void rest hvoid] at hfree hloc
      exact ih hfree hup.2 h hloc
    · rw [suffix_plain_cons place hvoid] at hfree hloc
      have hlink (target : String) := hfree (s :: place) target (List.suffix_append _ _)
      obtain ⟨hlen, hstep⟩ := walk_cons_name hvoid (Ne.symm hup.1) hlink h
      rw [walk, if_neg hvoid, if_neg (Ne.symm hup.1), if_neg (by simp),
        if_neg (Nat.not_lt.mpr hlen)]
      cases hstep with
      | inl hdown =>
        have hne : s :: place ≠ loc := fun heq => hdir (heq ▸ hdown.1)
        rw [hother _ (hloc ▸ List.suffix_append _ _) hne, hdown.1]
        exact ih hfree hup.2 hdown.2 hloc
      | inr hstop =>
        rw [← hstop.2.2, hfile, if_pos hstop.2.1]

theorem get?_tail {t : FileTree} {loc : Location} (h : t.get? loc = some .directory) :
    t.get? loc.tail = some .directory := by
  cases loc with
  | nil => exact h
  | cons => exact get?_parent h

/-- Links followed, a walk from a directory ends at an entry that is none. -/
theorem exists_get?_of_walk {t : FileTree} {links : Nat} {segments : List String}
    {place loc : Location} (hplace : t.get? place = some .directory)
    (h : t.walk .target links place segments = .ok loc) :
    ∃ e, t.get? loc = some e ∧ ∀ target, e ≠ .link target := by
  fun_induction walk t .target links place segments with
  | case1 =>
    rw [← Except.ok.inj h]
    exact ⟨.directory, hplace, by simp⟩
  | case2 _ _ _ _ _ ih => exact ih hplace h
  | case3 _ _ _ _ ih => exact ih (get?_tail hplace) h
  | case6 _ _ _ _ _ _ _ _ _ hlast => simp at hlast
  | case8 _ _ _ _ _ _ _ _ hdir ih => exact ih hdir h
  | case9 _ _ _ _ _ _ content hfile =>
    rw [← Except.ok.inj h]
    exact ⟨.file content, hfile, by simp⟩
  | case11 _ _ _ _ _ _ _ _ _ _ hlast => simp at hlast
  | case13 _ _ _ _ _ _ _ _ _ _ _ _ ih =>
    refine ih ?_ h
    split
    · rfl
    · exact hplace
  | case4 | case5 | case7 | case10 | case12 => contradiction

/-! Paths. Whether a path is too long or holds a NUL is no matter of the tree. -/

theorem locate_congr {t u : FileTree} {ending : Ending} {p : Path} {loc : Location}
    (hp : p.Spells loc) (hfree : t.LinkFreeAlong loc) (hagree : AgreeAlong t u loc) :
    u.locate ending p = t.locate ending p := by
  simp only [locate, walkPath, hp.isAbsolute, if_true]
  rw [← hp.place_eq] at hfree hagree
  rw [walk_congr hfree hagree hp.up_not_mem]

theorem walk_of_locate {t : FileTree} {ending : Ending} {p : Path} {loc : Location}
    (ha : p.isAbsolute = true) (h : t.locate ending p = .ok loc) :
    t.walk ending maxLinks [] p.segments = .ok loc := by
  simp only [locate, walkPath, ha, if_true] at h
  split at h
  · contradiction
  split at h
  · contradiction
  split at h
  · contradiction
  · exact h

/-- A path that can be looked up in one tree leads in another where its walk ends there. -/
theorem locate_of_walk {t u : FileTree} {ending other : Ending} {p : Path} {loc place : Location}
    (ha : p.isAbsolute = true) (h : t.locate ending p = .ok loc)
    (hwalk : u.walk other maxLinks [] p.segments = .ok place) : u.locate other p = .ok place := by
  simp only [locate, walkPath, ha, if_true] at h ⊢
  split at h
  · contradiction
  next hlen =>
    split at h
    · contradiction
    next hnul =>
      split at h
      · contradiction
      next hempty => rw [if_neg hlen, if_neg hnul, if_neg hempty, hwalk]

theorem locate_location {t : FileTree} {ending : Ending} {p : Path} {loc place : Location}
    (hp : p.Spells loc) (hfree : t.LinkFreeAlong loc) (h : t.locate ending p = .ok place) :
    place = loc := by
  rw [← hp.place_eq] at hfree ⊢
  exact walk_location hfree hp.up_not_mem (walk_of_locate hp.isAbsolute h)

/-- A path that spells an entry's location and is not too long asks for a walk. -/
theorem locate_eq_walk {t : FileTree} {ending : Ending} {p : Path} {loc : Location} {e : Entry}
    (hp : p.Spells loc) (he : t.get? loc = some e) (hlen : p.text.utf8ByteSize < maxPathBytes) :
    t.locate ending p = t.walk ending maxLinks [] p.segments := by
  have hnul : '\x00' ∉ p.text.toList :=
    hp.not_mem_nul fun n hn => (isEntryName_of_mem he hn).2.2.2.2.1
  simp only [locate, walkPath, hp.isAbsolute, hnul, hp.text_ne, Nat.not_le.mpr hlen,
    not_false_eq_true, true_and, if_false, if_true]

theorem locate_directory {t : FileTree} {p : Path} {loc : Location} (hp : p.Spells loc)
    (hdir : t.get? loc = some .directory) (hlen : p.text.utf8ByteSize < maxPathBytes) :
    t.locate .target p = .ok loc := by
  have hwalk : t.walk .target maxLinks [] (p.segments ++ []) =
      t.walk .target maxLinks ((Path.plain p.segments).reverse ++ []) [] :=
    walk_append maxLinks (hp.place_eq.symm ▸ hdir) hp.up_not_mem (.inl (by simp))
  rw [locate_eq_walk hp hdir hlen, ← List.append_nil p.segments, hwalk, walk, hp.place_eq]

theorem isDirectory_of_get? {t : FileTree} {p : Path} {loc : Location} (hp : p.Spells loc)
    (hdir : t.get? loc = some .directory) (hlen : p.text.utf8ByteSize < maxPathBytes) :
    t.isDirectory p = true := by
  simp [isDirectory, find, locate_directory hp hdir hlen, hdir, bind, Except.bind,
    Entry.isDirectory]

theorem find_eq_ok {t : FileTree} {ending : Ending} {p : Path} {e : Entry}
    (h : t.find ending p = .ok e) : ∃ loc, t.locate ending p = .ok loc ∧ t.get? loc = some e := by
  unfold find at h
  cases hl : t.locate ending p with
  | error => simp [hl, bind, Except.bind] at h
  | ok loc =>
    refine ⟨loc, rfl, ?_⟩
    simp only [hl, bind, Except.bind] at h
    split at h
    next e' he => rw [he, Except.ok.inj h]
    next => contradiction

theorem isDirectory_eq_true {t : FileTree} {p : Path} (h : t.isDirectory p = true) :
    ∃ loc, t.locate .target p = .ok loc ∧ t.get? loc = some .directory := by
  unfold isDirectory at h
  split at h
  next e he =>
    have ⟨loc, hl, hg⟩ := find_eq_ok he
    cases e with
    | directory => exact ⟨loc, hl, hg⟩
    | file | link => contradiction
  next => contradiction

/-- A directory is one where its path leads. -/
theorem get?_of_isDirectory {t : FileTree} {p : Path} {loc : Location} (hp : p.Spells loc)
    (hfree : t.LinkFreeAlong loc) (h : t.isDirectory p = true) : t.get? loc = some .directory := by
  have ⟨place, hl, hdir⟩ := isDirectory_eq_true h
  rwa [locate_location hp hfree hl] at hdir

theorem isDirectory_eq_false {t : FileTree} {p : Path} {loc : Location} (hp : p.Spells loc)
    (hfree : t.LinkFreeAlong loc) (h : t.get? loc ≠ some .directory) : t.isDirectory p = false := by
  rw [← Bool.not_eq_true]
  exact fun hdir => h (get?_of_isDirectory hp hfree hdir)

theorem read_eq_ok {t : FileTree} {p : Path} {content : ByteArray} (h : t.read p = .ok content) :
    ∃ loc, t.locate .target p = .ok loc ∧ t.get? loc = some (.file content) := by
  unfold read at h
  cases hf : t.find .target p with
  | error => simp [hf, bind, Except.bind] at h
  | ok e =>
    have ⟨loc, hl, hg⟩ := find_eq_ok hf
    simp only [hf, bind, Except.bind] at h
    split at h
    next content' => exact ⟨loc, hl, by rw [hg, Except.ok.inj h]⟩
    next => contradiction

/-- A file that is read is where its path leads. -/
theorem get?_of_read {t : FileTree} {p : Path} {loc : Location} (hp : p.Spells loc)
    (hfree : t.LinkFreeAlong loc) {content : ByteArray} (hread : t.read p = .ok content) :
    t.get? loc = some (.file content) := by
  have ⟨_, hl, hget⟩ := read_eq_ok hread
  rwa [locate_location hp hfree hl] at hget

theorem find_congr {t u : FileTree} {ending : Ending} {p : Path} {loc : Location}
    (hp : p.Spells loc) (hfree : t.LinkFreeAlong loc) (hagree : AgreeAlong t u loc) :
    u.find ending p = t.find ending p := by
  simp only [find, locate_congr hp hfree hagree]
  cases hl : t.locate ending p with
  | error => rfl
  | ok place =>
    have hg : u.get? place = t.get? place := by
      rw [locate_location hp hfree hl]
      exact hagree loc (List.suffix_refl loc)
    simp only [bind, Except.bind, hg]

theorem read_congr {t u : FileTree} {p : Path} {loc : Location} (hp : p.Spells loc)
    (hfree : t.LinkFreeAlong loc) (hagree : AgreeAlong t u loc) : u.read p = t.read p := by
  simp only [read, find_congr hp hfree hagree]

theorem accepts_congr {t u : FileTree} {loc : Location} (hagree : AgreeAlong t u loc) :
    u.Accepts loc ↔ t.Accepts loc := by
  cases loc with
  | nil => exact Iff.rfl
  | cons name above =>
    simp only [Accepts, hagree _ (List.suffix_refl _), hagree _ (List.suffix_cons name above)]

theorem write_of_locate {t : FileTree} {p : Path} {loc : Location}
    (h : t.locate .newFile p = .ok loc) (accepts : t.Accepts loc) (content : ByteArray) :
    t.write p content = .ok (t.put loc (.file content) accepts) := by
  simp only [write, h, bind, Except.bind, accepts, dite_true]

theorem write_of_not_accepts {t : FileTree} {p : Path} {loc : Location}
    (h : t.locate .newFile p = .ok loc) (accepts : ¬t.Accepts loc) (content : ByteArray) :
    t.write p content = .error .isADirectory := by
  simp only [write, h, bind, Except.bind, accepts, dite_false]

theorem not_directory_of_accepts {t : FileTree} {loc : Location} (h : t.Accepts loc) :
    t.get? loc ≠ some .directory := by
  cases loc with
  | nil => exact h.elim
  | cons => exact h.2.2

theorem write_eq_ok {t u : FileTree} {p : Path} {content : ByteArray}
    (h : t.write p content = .ok u) :
    ∃ loc accepts, t.locate .newFile p = .ok loc ∧ u = t.put loc (.file content) accepts := by
  unfold write at h
  cases hl : t.locate .newFile p with
  | error => simp [hl, bind, Except.bind] at h
  | ok loc =>
    simp only [hl, bind, Except.bind] at h
    split at h
    next accepts => exact ⟨loc, accepts, rfl, (Except.ok.inj h).symm⟩
    next => contradiction

/-- Whether a file can be written, and why not, is the same in trees that agree. -/
theorem write_error_iff {t u : FileTree} {p : Path} {loc : Location} (content : ByteArray)
    (cause : OsError) (hp : p.Spells loc) (hfree : t.LinkFreeAlong loc)
    (hagree : AgreeAlong t u loc) :
    u.write p content = .error cause ↔ t.write p content = .error cause := by
  simp only [write, locate_congr hp hfree hagree]
  cases hl : t.locate .newFile p with
  | error => rfl
  | ok place =>
    rw [locate_location hp hfree hl]
    simp only [bind, Except.bind, accepts_congr hagree]
    split <;> simp

/-- The entries of a directory, sorted by their names. -/
def entriesIn (t : FileTree) (loc : Location) : List (String × Entry) :=
  (t.namesIn loc).filterMap fun name => (t.get? (name :: loc)).map (name, ·)

theorem mem_entriesIn {t : FileTree} {loc : Location} {name : String} {e : Entry} :
    (name, e) ∈ t.entriesIn loc ↔ t.get? (name :: loc) = some e := by
  rw [entriesIn, List.mem_filterMap]
  constructor
  · intro ⟨n, _, hn⟩
    have ⟨e', he', hp⟩ := Option.map_eq_some_iff.mp hn
    obtain ⟨rfl, rfl⟩ := Prod.mk.inj hp
    exact he'
  · intro h
    exact ⟨name, mem_namesIn.mpr (by simp [h]), by rw [h]; rfl⟩

theorem list_of_directory {t : FileTree} {p : Path} {loc : Location} (hp : p.Spells loc)
    (hdir : t.get? loc = some .directory) (hlen : p.text.utf8ByteSize < maxPathBytes) :
    t.list p = .ok (t.entriesIn loc) := by
  simp only [list, locate_directory hp hdir hlen, bind, Except.bind, hdir]
  rfl

/-- The path of a directory is too long to be used, or its entries are what is listed. -/
theorem list_eq {t : FileTree} {p : Path} {loc : Location} (hp : p.Spells loc)
    (hdir : t.get? loc = some .directory) :
    t.list p = (t.locate .target p).map fun _ => t.entriesIn loc := by
  have hfree : t.LinkFreeAlong loc := linkFreeAlong_of_get? hdir (by simp)
  rw [list]
  cases hl : t.locate .target p with
  | error => rfl
  | ok place =>
    rw [locate_location hp hfree hl]
    simp only [bind, Except.bind, hdir]
    rfl

private theorem nodup_eraseDups (names : List String) : names.eraseDups.Nodup := by
  match names with
  | [] => simp
  | n :: rest =>
    have hshort : (rest.filter fun m => !m == n).length ≤ rest.length := List.length_filter_le _ _
    rw [List.eraseDups_cons, List.nodup_cons, List.mem_eraseDups, List.mem_filter]
    exact ⟨by simp, nodup_eraseDups _⟩
  termination_by names.length
  decreasing_by
    simp only [List.length_cons]
    omega

theorem nodup_namesIn (t : FileTree) (loc : Location) : (t.namesIn loc).Nodup :=
  (List.mergeSort_perm _ _).nodup_iff.mpr (nodup_eraseDups _)

/-- Only one entry of a directory has a given name. -/
theorem flatMap_entriesIn {α : Type} {t : FileTree} {loc : Location} {name : String} {e : Entry}
    (he : t.get? (name :: loc) = some e) {f : String × Entry → List α}
    (hf : ∀ n e', n ≠ name → f (n, e') = []) : (t.entriesIn loc).flatMap f = f (name, e) := by
  have hother (names : List String) (h : name ∉ names) :
      (names.filterMap fun n => (t.get? (n :: loc)).map (n, ·)).flatMap f = [] := by
    rw [List.flatMap_eq_nil_iff]
    intro x hx
    have ⟨n, hn, hx⟩ := List.mem_filterMap.mp hx
    obtain ⟨e', _, rfl⟩ := Option.map_eq_some_iff.mp hx
    exact hf n e' fun heq => h (heq ▸ hn)
  have hmem : name ∈ t.namesIn loc := mem_namesIn.mpr (by simp [he])
  have hnodup := t.nodup_namesIn loc
  unfold entriesIn
  have ⟨before, after, hsplit⟩ := List.append_of_mem hmem
  rw [hsplit, List.nodup_append] at hnodup
  have hbefore : name ∉ before := fun h => hnodup.2.2 name h name List.mem_cons_self rfl
  have hafter : name ∉ after := (List.nodup_cons.mp hnodup.2.1).1
  rw [hsplit, List.filterMap_append, List.flatMap_append, hother before hbefore,
    List.filterMap_cons_some (b := (name, e)) (by rw [he]; rfl), List.flatMap_cons,
    hother after hafter, List.append_nil, List.nil_append]

theorem exists_get?_of_walkPath {t : FileTree} {p : Path} {loc : Location}
    (h : t.walkPath .target p = .ok loc) :
    ∃ e, t.get? loc = some e ∧ ∀ target, e ≠ .link target := by
  unfold walkPath at h
  split at h
  · contradiction
  split at h
  · contradiction
  split at h
  · exact exists_get?_of_walk rfl h
  split at h
  · contradiction
  next hwd => exact exists_get?_of_walk (Decidable.not_not.mp hwd) h

theorem asksForDirectory_eq_false {names : List String} (h : ∀ n ∈ names, IsEntryName n) :
    asksForDirectory names = false := by
  cases names with
  | nil => rfl
  | cons n names =>
    have ⟨hempty, hdot, hup, _⟩ := h n List.mem_cons_self
    rw [asksForDirectory, if_neg hup, if_neg (not_or.mpr ⟨hempty, hdot⟩)]

/-- On the way down to a directory by names, nothing longer than its path is looked up. -/
theorem utf8ByteSize_le_of_mem_lookups {t : FileTree} {links : Nat} {names : List String}
    {place : Location} (hdir : t.get? (names.reverse ++ place) = some .directory) {text : String}
    (h : text ∈ t.lookups links place names) :
    text.utf8ByteSize ≤ (pathOf (names.reverse ++ place)).utf8ByteSize := by
  induction names generalizing place with
  | nil => simp [lookups] at h
  | cons n names ih =>
    have hasks : asksForDirectory names = false := asksForDirectory_eq_false fun m hm =>
      isEntryName_of_mem hdir (by simp [hm])
    rw [List.reverse_cons, List.append_assoc, List.singleton_append] at hdir ⊢
    have hn : t.get? (n :: place) = some .directory :=
      get?_of_suffix hdir (List.suffix_append _ _)
    obtain ⟨hempty, hdot, hup, _⟩ := isEntryName_of_get? hn
    rw [lookups, if_neg (not_or.mpr ⟨hempty, hdot⟩), if_neg hup, hn] at h
    simp only [hasks, Bool.false_eq_true, if_false] at h
    cases List.mem_cons.mp h with
    | inl heq => exact heq ▸ utf8ByteSize_pathOf_le _ _
    | inr hmem => exact ih hdir hmem

theorem realPath_eq_ok_iff {t : FileTree} {p q : Path} : t.realPath p = .ok q ↔
    ∃ loc, t.walkPath .target p = .ok loc ∧ q = ⟨pathOf loc⟩ ∧
      ∀ text ∈ t.lookups maxLinks (t.start p) p.segments, text.utf8ByteSize < maxPathBytes := by
  unfold realPath
  cases t.walkPath .target p with
  | error => simp [bind, Except.bind]
  | ok loc =>
    simp only [bind, Except.bind, List.all_eq_true, decide_eq_true_eq]
    split
    next hshort =>
      constructor
      · intro h
        exact ⟨loc, rfl, (Except.ok.inj h).symm, hshort⟩
      · rintro ⟨_, hloc, rfl, _⟩
        rw [Except.ok.inj hloc]
    next hlong =>
      refine iff_of_false (by simp) ?_
      rintro ⟨_, _, _, hshort⟩
      exact hlong hshort

/-- The path of a directory is its real path. -/
theorem realPath_pathOf {t : FileTree} {loc : Location} (hdir : t.get? loc = some .directory)
    (hlen : (pathOf loc).utf8ByteSize < maxPathBytes) :
    t.realPath ⟨pathOf loc⟩ = .ok ⟨pathOf loc⟩ := by
  have hspells := spells_pathOf_of_get? hdir
  have hlocate := locate_directory hspells hdir hlen
  refine realPath_eq_ok_iff.mpr ⟨loc, ?_, rfl, fun text htext => ?_⟩
  · rwa [locate, if_neg (by simp [Nat.not_le.mpr hlen])] at hlocate
  · rw [start, hspells.isAbsolute, if_pos rfl] at htext
    by_cases hloc : loc = []
    · subst hloc
      have hsegments : (⟨pathOf []⟩ : Path).segments = ["", ""] := by decide
      simp [hsegments, lookups] at htext
    · rw [segments_pathOf hloc fun n hn => (isEntryName_of_mem hdir hn).2.2.2.1, lookups,
        if_pos (.inl rfl)] at htext
      have hle := utf8ByteSize_le_of_mem_lookups (by simpa using hdir) htext
      rw [List.append_nil, List.reverse_reverse] at hle
      exact Nat.lt_of_le_of_lt hle hlen

end FileTree

/-- `root` is the path of the directory at `loc`, and short enough to be used. -/
structure IsRoot (t : FileTree) (root : Path) (loc : Location) : Prop where
  eq_pathOf : root = ⟨FileTree.pathOf loc⟩
  isDirectory : t.get? loc = some .directory
  short : root.text.utf8ByteSize < FileTree.maxPathBytes

theorem IsRoot.spells {t : FileTree} {root : Path} {loc : Location} (h : IsRoot t root loc) :
    root.Spells loc :=
  h.eq_pathOf ▸ FileTree.spells_pathOf_of_get? h.isDirectory

theorem canonicalRoot_eq_ok_iff {t : FileTree} {p root : Path} :
    canonicalRoot t p = .ok root ↔ t.realPath p = .ok root ∧ ∃ loc, IsRoot t root loc := by
  unfold canonicalRoot
  constructor
  · intro h
    split at h
    next q hq =>
      split at h
      next hdir =>
        obtain rfl := Except.ok.inj h
        obtain ⟨loc, hwalk, hpath, _⟩ := FileTree.realPath_eq_ok_iff.mp hq
        obtain ⟨e, he, hlink⟩ := FileTree.exists_get?_of_walkPath hwalk
        obtain ⟨place, hl, hg⟩ := FileTree.isDirectory_eq_true hdir
        have hs : q.Spells loc := hpath ▸ FileTree.spells_pathOf_of_get? he
        have hfree := FileTree.linkFreeAlong_of_get? he hlink
        rw [FileTree.locate_location hs hfree hl] at hg
        exact ⟨hq, loc, hpath, hg, FileTree.utf8ByteSize_lt_of_locate hl⟩
      next => contradiction
    next => contradiction
  · rintro ⟨hreal, loc, hroot⟩
    rw [hreal]
    simp only [FileTree.isDirectory_of_get? hroot.spells hroot.isDirectory hroot.short, if_true]

theorem isRoot_of_canonicalRoot {t : FileTree} {p root : Path}
    (h : canonicalRoot t p = .ok root) : ∃ loc, IsRoot t root loc :=
  (canonicalRoot_eq_ok_iff.mp h).2

theorem IsRoot.realPath_eq {t : FileTree} {root : Path} {loc : Location} (h : IsRoot t root loc) :
    t.realPath root = .ok root := by
  obtain ⟨rfl, hdir, hshort⟩ := h
  exact FileTree.realPath_pathOf hdir hshort

theorem IsRoot.canonicalRoot_eq {t : FileTree} {root : Path} {loc : Location}
    (h : IsRoot t root loc) : canonicalRoot t root = .ok root :=
  canonicalRoot_eq_ok_iff.mpr ⟨h.realPath_eq, loc, h⟩

theorem isRoot_oneFile : IsRoot FileTree.oneFile ⟨"/"⟩ [] :=
  ⟨rfl, rfl, by decide⟩

end Sidecar
