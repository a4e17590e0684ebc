import Sidecar.Proofs.Leading

/-! Trees in which files are made or written anew and nothing else is changed. Paths lead to where
they led before, so what was found once is found again. -/

namespace Sidecar

namespace FileTree

/-- `u` is `t` but for files, made where nothing was or in place of other files. -/
def GrowsTo (t u : FileTree) : Prop :=
  ∀ loc, u.get? loc = t.get? loc ∨ ∃ content, u.get? loc = some (.file content) ∧
    (t.get? loc = none ∨ ∃ old, t.get? loc = some (.file old))

section

variable {t u v : FileTree} {ending : Ending} {links : Nat} {place loc : Location}
  {segments : List String}

theorem growsTo_refl (t : FileTree) : t.GrowsTo t :=
  fun _ => .inl rfl

theorem GrowsTo.trans (h : t.GrowsTo u) (h' : u.GrowsTo v) : t.GrowsTo v := by
  intro loc
  cases h' loc with
  | inl heq => exact heq ▸ h loc
  | inr hfile =>
    have ⟨content, hv, hu⟩ := hfile
    refine .inr ⟨content, hv, ?_⟩
    cases h loc with
    | inl heq => exact heq ▸ hu
    | inr hfile => exact hfile.choose_spec.2

theorem GrowsTo.get?_file (h : t.GrowsTo u) {old : ByteArray} (ht : t.get? loc = some (.file old)) :
    ∃ content, u.get? loc = some (.file content) := by
  cases h loc with
  | inl heq => exact ⟨old, heq.trans ht⟩
  | inr hfile => exact ⟨hfile.choose, hfile.choose_spec.1⟩

theorem GrowsTo.get?_iff (h : t.GrowsTo u) {e : Entry} (he : ∀ content, e ≠ .file content) :
    u.get? loc = some e ↔ t.get? loc = some e := by
  cases h loc with
  | inl heq => rw [heq]
  | inr hfile =>
    have ⟨content, hu, ht⟩ := hfile
    have hne : u.get? loc ≠ some e := fun heq => he content (Option.some.inj (heq.symm.trans hu))
    refine iff_of_false hne fun heq => ?_
    rw [heq] at ht
    obtain hnone | ⟨old, hold⟩ := ht
    · contradiction
    · exact he old (Option.some.inj hold)

/-- A place that was changed was no directory. -/
theorem GrowsTo.not_directory (h : t.GrowsTo u) (hloc : u.get? loc ≠ t.get? loc) :
    t.get? loc ≠ some .directory := by
  cases h loc with
  | inl heq => exact absurd heq hloc
  | inr hfile =>
    have ⟨_, _, hold⟩ := hfile
    intro hdir
    rw [hdir] at hold
    simp at hold

theorem GrowsTo.leads (h : t.GrowsTo u) (hl : t.Leads ending links place segments loc) :
    u.Leads ending links place segments loc := by
  induction hl with
  | here => exact .here
  | void hvoid _ ih => exact .void hvoid ih
  | up _ ih => exact .up ih
  | down hname hfollow hdir _ ih =>
    exact .down hname hfollow ((h.get?_iff (by simp)).mpr hdir) ih
  | file hname hfile => exact .file hname (h.get?_file hfile).choose_spec
  | @fresh _ place s hname hnew hnone =>
    cases h (s :: place) with
    | inl heq => exact .fresh hname hnew (heq.trans hnone)
    | inr hfile => exact .file hname hfile.choose_spec.1
  | link hname hentry hlink => exact .link hname hentry ((h.get?_iff (by simp)).mpr hlink)
  | follow hname hfollow hnot hlink _ ih =>
    exact .follow hname hfollow hnot ((h.get?_iff (by simp)).mpr hlink) ih

/-- Where a file can be made, one could be made before. -/
theorem GrowsTo.leads_newFile_iff (h : t.GrowsTo u) :
    u.Leads .newFile links place segments loc ↔ t.Leads .newFile links place segments loc := by
  refine ⟨fun hl => ?_, h.leads⟩
  induction hl with
  | here => exact .here
  | void hvoid _ ih => exact .void hvoid ih
  | up _ ih => exact .up ih
  | down hname hfollow hdir _ ih =>
    exact .down hname hfollow ((h.get?_iff (by simp)).mp hdir) ih
  | @file _ place s content hname hfile =>
    have hthere : t.get? (s :: place) = none ∨ ∃ old, t.get? (s :: place) = some (.file old) := by
      cases h (s :: place) with
      | inl heq => exact .inr ⟨content, heq.symm.trans hfile⟩
      | inr hfile => exact hfile.choose_spec.2
    cases hthere with
    | inl hnone => exact .fresh hname rfl hnone
    | inr hold => exact .file hname hold.choose_spec
  | @fresh _ place s hname _ hnone =>
    cases h (s :: place) with
    | inl heq => exact .fresh hname rfl (heq.symm.trans hnone)
    | inr hfile =>
      rw [hfile.choose_spec.1] at hnone
      contradiction
  | link _ hentry => contradiction
  | follow hname hfollow hnot hlink _ ih =>
    exact .follow hname hfollow hnot ((h.get?_iff (by simp)).mp hlink) ih

/-- A walk from a directory that follows all links ends at no link. -/
theorem Leads.not_link (h : t.Leads ending links place segments loc) (hending : ending ≠ .entry)
    (hplace : t.get? place = some .directory) (target : String) :
    t.get? loc ≠ some (.link target) := by
  induction h with
  | here =>
    rw [hplace]
    simp
  | void _ _ ih => exact ih hplace
  | up _ ih => exact ih (get?_tail hplace)
  | down _ _ hdir _ ih => exact ih hdir
  | file _ hfile =>
    rw [hfile]
    simp
  | fresh _ _ hnone =>
    rw [hnone]
    simp
  | link _ hentry => contradiction
  | follow _ _ _ _ _ ih =>
    apply ih
    unfold startOf
    split
    · rfl
    · exact hplace

end

/-! Paths. -/

/-- A path that can be looked up, be there something or not. -/
def IsUsable (p : Path) : Prop :=
  '\x00' ∉ p.text.toList ∧ p.text.utf8ByteSize < maxPathBytes

section

variable {t u : FileTree} {ending : Ending} {p : Path} {loc place : Location}

theorem walkPath_eq_ok_iff_of_isAbsolute (ha : p.isAbsolute = true) :
    t.walkPath ending p = .ok loc ↔
      '\x00' ∉ p.text.toList ∧ t.Leads ending maxLinks [] p.segments loc := by
  have htext : p.text ≠ "" := by
    intro h
    simp [Path.isAbsolute, h] at ha
  have hroot : t.get? [] = some .directory := rfl
  rw [walkPath_eq_ok_iff, start, if_pos ha, and_iff_right htext, and_iff_right hroot]

theorem locate_eq_ok_iff (ha : p.isAbsolute = true) :
    t.locate ending p = .ok loc ↔ IsUsable p ∧ t.Leads ending maxLinks [] p.segments loc := by
  rw [IsUsable, and_right_comm, ← walkPath_eq_ok_iff_of_isAbsolute ha]
  constructor
  · intro h
    have hlen := utf8ByteSize_lt_of_locate h
    rw [locate, if_neg fun hlong => Nat.not_le.mpr hlen hlong.2] at h
    exact ⟨h, hlen⟩
  · rintro ⟨hwalk, hlen⟩
    rwa [locate, if_neg fun hlong => Nat.not_le.mpr hlen hlong.2]

/-- A directory stands where the path leads, be the path too long to be looked up or not. -/
def NamesDirectory (t : FileTree) (p : Path) : Prop :=
  ∃ loc, t.walkPath .target p = .ok loc ∧ t.get? loc = some .directory

/-- What leads to a directory leads there in every other spelling. -/
theorem namesDirectory_of_spells {q : Path} (hp : p.Spells loc) (hq : q.Spells loc)
    (hdir : t.isDirectory p = true) : t.NamesDirectory q := by
  have ⟨place, hlocate, hplace⟩ := isDirectory_eq_true hdir
  have ⟨⟨hnul, _⟩, hleads⟩ := (locate_eq_ok_iff hp.isAbsolute).mp hlocate
  have hplain : Path.plain q.segments = Path.plain p.segments :=
    (Path.spells_iff.mp hq).2.2.trans (Path.spells_iff.mp hp).2.2.symm
  exact ⟨place, (walkPath_eq_ok_iff_of_isAbsolute hq.isAbsolute).mpr
    ⟨hp.not_mem_nul_of_spells hq hnul, hleads.congr_plain hplace hplain⟩, hplace⟩

theorem GrowsTo.locate (h : t.GrowsTo u) (ha : p.isAbsolute = true)
    (hl : t.locate ending p = .ok loc) : u.locate ending p = .ok loc := by
  rw [locate_eq_ok_iff ha] at hl ⊢
  exact ⟨hl.1, h.leads hl.2⟩

theorem GrowsTo.locate_newFile_iff (h : t.GrowsTo u) (ha : p.isAbsolute = true) :
    u.locate .newFile p = .ok loc ↔ t.locate .newFile p = .ok loc := by
  rw [locate_eq_ok_iff ha, locate_eq_ok_iff ha, h.leads_newFile_iff]

theorem locate_target_of_newFile {content : ByteArray} (ha : p.isAbsolute = true)
    (h : t.locate .newFile p = .ok loc) (hfile : t.get? loc = some (.file content)) :
    t.locate .target p = .ok loc := by
  rw [locate_eq_ok_iff ha] at h ⊢
  exact ⟨h.1, h.2.target_of_newFile hfile⟩

theorem growsTo_put (ha : p.isAbsolute = true) (h : t.locate .newFile p = .ok loc)
    (accepts : t.Accepts loc) (content : ByteArray) :
    t.GrowsTo (t.put loc (.file content) accepts) := by
  intro other
  by_cases heq : other = loc
  · subst heq
    refine .inr ⟨content, get?_put_self t other _ accepts, ?_⟩
    have hlink := ((locate_eq_ok_iff ha).mp h).2.not_link (by simp) rfl
    have hdir := not_directory_of_accepts accepts
    cases hg : t.get? other with
    | none => exact .inl rfl
    | some e =>
      cases e with
      | directory => exact absurd hg hdir
      | file old => exact .inr ⟨old, rfl⟩
      | link target => exact absurd hg (hlink target)
  · exact .inl (get?_put_of_ne accepts heq)

theorem read_of_locate {content : ByteArray} (h : t.locate .target p = .ok loc)
    (hfile : t.get? loc = some (.file content)) : t.read p = .ok content := by
  rw [read, find, h]
  simp only [bind, Except.bind, hfile]

end

/-! What stays where no link is followed. -/

section

variable {t u : FileTree} {p : Path} {loc root : Location}

theorem GrowsTo.linkFreeAlong (h : t.GrowsTo u) (hfree : t.LinkFreeAlong loc) :
    u.LinkFreeAlong loc :=
  fun l target hs hl => hfree l target hs ((h.get?_iff (by simp)).mp hl)

theorem GrowsTo.linkFreeBelow (h : t.GrowsTo u) (hfree : t.LinkFreeBelow root) :
    u.LinkFreeBelow root :=
  fun l target hs hl => hfree l target hs ((h.get?_iff (by simp)).mp hl)

theorem GrowsTo.agreeAlong (h : t.GrowsTo u) (hdir : t.get? loc = some .directory) :
    AgreeAlong t u loc :=
  agreeAlong_of_isSome (by simp [hdir]) (((h.get?_iff (by simp)).mpr hdir).trans hdir.symm)

theorem GrowsTo.isDirectory_eq (h : t.GrowsTo u) (hp : p.Spells loc)
    (hfree : t.LinkFreeAlong loc) : u.isDirectory p = t.isDirectory p := by
  by_cases hdir : t.get? loc = some .directory
  · rw [isDirectory, isDirectory, find_congr hp hfree (h.agreeAlong hdir)]
  · rw [isDirectory_eq_false hp hfree hdir, isDirectory_eq_false hp (h.linkFreeAlong hfree)]
    rwa [ne_eq, h.get?_iff (by simp)]

theorem GrowsTo.accepts_iff (h : t.GrowsTo u) : u.Accepts loc ↔ t.Accepts loc := by
  cases loc with
  | nil => exact Iff.rfl
  | cons name above => simp only [Accepts, h.get?_iff (e := .directory) (by simp), ne_eq]

end

/-! The root of a run. -/

section

variable {t u : FileTree} {ending : Ending} {p root : Path} {loc above : Location}

theorem GrowsTo.walkPath (h : t.GrowsTo u) (hdir : u.workingDirectory = t.workingDirectory)
    (hwalk : t.walkPath ending p = .ok loc) : u.walkPath ending p = .ok loc := by
  rw [walkPath_eq_ok_iff] at hwalk ⊢
  obtain ⟨hnul, htext, hthere, hleads⟩ := hwalk
  rw [start, hdir, ← start]
  exact ⟨hnul, htext, (h.get?_iff (by simp)).mpr hthere, h.leads hleads⟩

theorem GrowsTo.isRoot (h : t.GrowsTo u) (hroot : IsRoot t root above) : IsRoot u root above :=
  ⟨hroot.eq_pathOf, (h.get?_iff (by simp)).mpr hroot.isDirectory, hroot.short⟩

/-- What leads somewhere is looked up by the same texts. -/
theorem GrowsTo.lookups_eq (h : t.GrowsTo u) {links : Nat} {place : Location}
    {segments : List String} (hl : t.Leads .target links place segments loc) :
    u.lookups links place segments = t.lookups links place segments := by
  induction hl with
  | here => rw [lookups, lookups]
  | void hvoid _ ih => rw [lookups_void hvoid, lookups_void hvoid, ih]
  | up _ ih => rw [lookups_up, lookups_up, ih]
  | down hname _ hdir _ ih =>
    rw [lookups_directory hname hdir, lookups_directory hname ((h.get?_iff (by simp)).mpr hdir), ih]
  | file hname hfile =>
    obtain ⟨_, hfile'⟩ := h.get?_file hfile
    rw [lookups_file hname hfile, lookups_file hname hfile']
  | fresh _ hnew => contradiction
  | link _ hentry => contradiction
  | follow hname _ _ hlink _ ih =>
    rw [lookups_link hname hlink, lookups_link hname ((h.get?_iff (by simp)).mpr hlink), ih]

theorem GrowsTo.realPath {q : Path} (h : t.GrowsTo u)
    (hdir : u.workingDirectory = t.workingDirectory) (hreal : t.realPath p = .ok q) :
    u.realPath p = .ok q := by
  rw [realPath_eq_ok_iff] at hreal ⊢
  obtain ⟨loc, hwalk, rfl, hshort⟩ := hreal
  refine ⟨loc, h.walkPath hdir hwalk, rfl, ?_⟩
  rw [start, hdir, ← start, h.lookups_eq (walkPath_eq_ok_iff.mp hwalk).2.2.2]
  exact hshort

theorem GrowsTo.canonicalRoot (h : t.GrowsTo u) (hdir : u.workingDirectory = t.workingDirectory)
    (hroot : Sidecar.canonicalRoot t p = .ok root) : Sidecar.canonicalRoot u p = .ok root := by
  rw [canonicalRoot_eq_ok_iff] at hroot ⊢
  obtain ⟨hreal, above, hisRoot⟩ := hroot
  exact ⟨h.realPath hdir hreal, above, h.isRoot hisRoot⟩

end

/-! The plain path to the place that a path spells. -/

/-- The text of an absolute path is that of its segments, those that say nothing included. -/
theorem exists_text_eq_pathOf {p : Path} {loc : Location} (h : p.Spells loc) :
    ∃ segments : List String, p.text = pathOf segments ∧
      loc = segments.filter fun s => s ≠ "" ∧ s ≠ "." := by
  have ⟨ha, _, hplain⟩ := Path.spells_iff.mp h
  have ⟨rest, hne, hs⟩ := Path.segments_of_isAbsolute ha
  refine ⟨rest.reverse, ?_, ?_⟩
  · have htext := Text.joinedBy_piecesOf '/' p.text
    rw [show Text.piecesOf '/' p.text = _ from hs] at htext
    rw [pathOf_eq_intercalate (by simpa using hne), List.reverse_reverse,
      ← Text.joinedBy_eq_intercalate]
    exact htext.symm
  · rw [hs, Path.plain_cons_void rest (.inl rfl)] at hplain
    rw [List.filter_reverse, ← List.reverse_inj, ← hplain, List.reverse_reverse]
    rfl

theorem utf8ByteSize_pathOf_filter_le (keeps : String → Bool) (loc : Location) :
    (pathOf (loc.filter keeps)).utf8ByteSize ≤ (pathOf loc).utf8ByteSize := by
  have hcons (n : String) (above : Location) (hne : above ≠ []) :
      (pathOf (n :: above)).utf8ByteSize = (pathOf above).utf8ByteSize + 1 + n.utf8ByteSize := by
    rw [pathOf_cons n hne, String.utf8ByteSize_append, String.utf8ByteSize_append]
    rfl
  have hone (n : String) (above : Location) :
      (pathOf [n]).utf8ByteSize ≤ (pathOf (n :: above)).utf8ByteSize := by
    cases above with
    | nil => exact Nat.le_refl _
    | cons m more =>
      rw [hcons n _ (List.cons_ne_nil m more), pathOf_singleton, String.utf8ByteSize_append,
        show "/".utf8ByteSize = 1 from rfl]
      omega
  induction loc with
  | nil => exact Nat.le_refl _
  | cons n above ih =>
    by_cases hkeep : keeps n = true
    · rw [List.filter_cons_of_pos hkeep]
      by_cases hkept : above.filter keeps = []
      · rw [hkept]
        exact hone n above
      · have hne : above ≠ [] := by
          rintro rfl
          exact hkept rfl
        rw [hcons n _ hkept, hcons n _ hne]
        omega
    · rw [List.filter_cons_of_neg hkeep]
      exact Nat.le_trans ih (utf8ByteSize_pathOf_le [n] above)

/-- The path without its void segments leads to the same place. -/
theorem locate_pathOf {t : FileTree} {p : Path} {loc place : Location} (hp : p.Spells loc)
    (hne : loc ≠ []) (h : t.locate .target p = .ok place) :
    t.locate .target ⟨pathOf loc⟩ = .ok place := by
  have hname : ∀ n ∈ loc, n ≠ "" ∧ n ≠ "." ∧ n ≠ ".." ∧ '/' ∉ n.toList := fun n hn => hp.name hn
  have ha : (⟨pathOf loc⟩ : Path).isAbsolute = true := (spells_pathOf hname).isAbsolute
  have ⟨⟨hnul, hlen⟩, hleads⟩ := (locate_eq_ok_iff hp.isAbsolute).mp h
  refine (locate_eq_ok_iff ha).mpr ⟨⟨?_, ?_⟩, ?_⟩
  · have ⟨segments, htext, hloc⟩ := exists_text_eq_pathOf hp
    intro hmem
    apply hnul
    rw [toList_pathOf hne, List.mem_flatMap] at hmem
    have ⟨n, hn, hc⟩ := hmem
    have hin : n ∈ segments := (List.mem_filter.mp (hloc ▸ List.mem_reverse.mp hn)).1
    rw [htext, toList_pathOf (List.ne_nil_of_mem hin), List.mem_flatMap]
    exact ⟨n, List.mem_reverse.mpr hin, hc⟩
  · have ⟨segments, htext, hloc⟩ := exists_text_eq_pathOf hp
    refine Nat.lt_of_le_of_lt ?_ hlen
    rw [htext, hloc]
    exact utf8ByteSize_pathOf_filter_le _ segments
  · have hwhole : t.Leads .target maxLinks [] ([] ++ p.segments) place := hleads
    have hplain : t.Leads .target maxLinks [] (Path.plain p.segments) place := hwhole.plain
    rw [(Path.spells_iff.mp hp).2.2] at hplain
    rw [segments_pathOf hne fun n hn => (hname n hn).2.2.2]
    exact .void (.inl rfl) hplain

end FileTree

/-- A relative path behind the path of a root is the path of the location below it. -/
theorem child_intercalate {above : Location} (habove : ∀ n ∈ above, n ≠ "" ∧ '/' ∉ n.toList)
    {names : List String} (hne : names ≠ []) :
    (⟨FileTree.pathOf above⟩ : Path).child ("/".intercalate names) =
      ⟨FileTree.pathOf (names.reverse ++ above)⟩ := by
  have hone : ("/".intercalate names :: above).reverse = above.reverse ++ ["/".intercalate names] :=
    List.reverse_cons
  have hall : (names.reverse ++ above).reverse = above.reverse ++ names := by simp
  rw [FileTree.child_pathOf habove, FileTree.pathOf_eq_intercalate (by simp),
    FileTree.pathOf_eq_intercalate (by simp [hne]), hone, hall, ← List.cons_append,
    ← List.cons_append, String.intercalate_append_of_ne_nil (by simp) (by simp),
    String.intercalate_append_of_ne_nil (by simp) hne, String.intercalate_singleton]

end Sidecar
