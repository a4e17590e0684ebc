import Sidecar.Proofs.Lookup

/-! Where paths lead when links are on the way, as a relation. A walk can be cut before any of its
segments, and links met on the way are followed there as they are at the end of a path. -/

namespace Sidecar.FileTree

/-- Where the target of a link is walked from. -/
def startOf (target : String) (place : Location) : Location :=
  if Path.isAbsolute ⟨target⟩ then [] else place

/-- A segment that names an entry. -/
structure IsName (s : String) : Prop where
  not_void : ¬(s = "" ∨ s = ".")
  not_up : s ≠ ".."
  short : s.utf8ByteSize ≤ maxNameBytes

/-- Segments that may stand behind a name: void ones do not end the path of a file to be made. -/
def MayFollow (ending : Ending) (rest : List String) : Prop :=
  ¬(ending = .newFile ∧ rest ≠ [] ∧ rest.all (· = "") = true)

/-- A walk from a place leads to a location, with links to spare. -/
inductive Leads (t : FileTree) (ending : Ending) : Nat → Location → List String → Location → Prop
  where
  | here {links place} : Leads t ending links place [] place
  | void {links place s rest loc} : s = "" ∨ s = "." → Leads t ending links place rest loc →
      Leads t ending links place (s :: rest) loc
  | up {links place rest loc} : Leads t ending links place.tail rest loc →
      Leads t ending links place (".." :: rest) loc
  | down {links place s rest loc} : IsName s → MayFollow ending rest →
      t.get? (s :: place) = some .directory → Leads t ending links (s :: place) rest loc →
      Leads t ending links place (s :: rest) loc
  | file {links place s content} : IsName s → t.get? (s :: place) = some (.file content) →
      Leads t ending links place [s] (s :: place)
  | fresh {links place s} : IsName s → ending = .newFile → t.get? (s :: place) = none →
      Leads t ending links place [s] (s :: place)
  | link {links place s target} : IsName s → ending = .entry →
      t.get? (s :: place) = some (.link target) → Leads t ending links place [s] (s :: place)
  | follow {links place s rest target loc} : IsName s → MayFollow ending rest →
      ¬(ending = .entry ∧ rest = []) → t.get? (s :: place) = some (.link target) →
      Leads t ending links (startOf target place) (Path.segments ⟨target⟩ ++ rest) loc →
      Leads t ending (links + 1) place (s :: rest) loc

variable {t : FileTree} {ending : Ending} {links : Nat} {place loc : Location}
  {segments : List String}

theorem mayFollow_nil (ending : Ending) : MayFollow ending [] :=
  fun h => h.2.1 rfl

theorem leads_of_walk (h : t.walk ending links place segments = .ok loc) :
    t.Leads ending links place segments loc := by
  fun_induction walk t ending links place segments with
  | case1 => exact Except.ok.inj h ▸ .here
  | case2 _ _ _ _ hvoid ih => exact .void hvoid (ih h)
  | case3 _ _ _ _ ih => exact .up (ih h)
  | case6 _ _ _ _ hvoid hup _ hlen hnone hlast =>
    obtain ⟨hnew, rfl⟩ := hlast
    exact Except.ok.inj h ▸ .fresh ⟨hvoid, hup, Nat.not_lt.mp hlen⟩ hnew hnone
  | case8 _ _ _ _ hvoid hup hfollow hlen hdir ih =>
    exact .down ⟨hvoid, hup, Nat.not_lt.mp hlen⟩ hfollow hdir (ih h)
  | case9 _ _ _ hvoid hup hlen _ hfile =>
    exact Except.ok.inj h ▸ .file ⟨hvoid, hup, Nat.not_lt.mp hlen⟩ hfile
  | case11 _ _ _ _ hvoid hup _ hlen _ hlink hlast =>
    obtain ⟨hentry, rfl⟩ := hlast
    exact Except.ok.inj h ▸ .link ⟨hvoid, hup, Nat.not_lt.mp hlen⟩ hentry hlink
  | case13 _ _ _ hvoid hup hfollow hlen _ hlink hlast _ _ ih =>
    exact .follow ⟨hvoid, hup, Nat.not_lt.mp hlen⟩ hfollow hlast hlink (ih h)
  | case4 | case5 | case7 | case10 | case12 => contradiction

theorem walk_of_leads (h : t.Leads ending links place segments loc) :
    t.walk ending links place segments = .ok loc := by
  induction h with
  | here => rw [walk]
  | void hvoid _ ih => rw [walk_cons_void _ _ _ _ _ hvoid, ih]
  | up _ ih =>
    rw [walk, if_neg (by decide), if_pos rfl, ih]
  | down hname hfollow hdir _ ih =>
    rw [walk, if_neg hname.not_void, if_neg hname.not_up, if_neg hfollow,
      if_neg (Nat.not_lt.mpr hname.short), hdir]
    exact ih
  | file hname hfile =>
    rw [walk, if_neg hname.not_void, if_neg hname.not_up, if_neg (mayFollow_nil ending),
      if_neg (Nat.not_lt.mpr hname.short), hfile]
    exact if_pos rfl
  | fresh hname hnew hnone =>
    rw [walk, if_neg hname.not_void, if_neg hname.not_up, if_neg (mayFollow_nil ending),
      if_neg (Nat.not_lt.mpr hname.short), hnone]
    exact if_pos ⟨hnew, rfl⟩
  | link hname hentry hlink =>
    rw [walk, if_neg hname.not_void, if_neg hname.not_up, if_neg (mayFollow_nil ending),
      if_neg (Nat.not_lt.mpr hname.short), hlink]
    exact if_pos ⟨hentry, rfl⟩
  | follow hname hfollow hnot hlink _ ih =>
    rw [walk, if_neg hname.not_void, if_neg hname.not_up, if_neg hfollow,
      if_neg (Nat.not_lt.mpr hname.short), hlink]
    simp only [if_neg hnot]
    exact ih

theorem walk_eq_ok_iff : t.walk ending links place segments = .ok loc ↔
    t.Leads ending links place segments loc :=
  ⟨leads_of_walk, walk_of_leads⟩

theorem mayFollow_target (rest : List String) : MayFollow .target rest := by
  simp [MayFollow]

theorem walkPath_eq_ok_iff {p : Path} : t.walkPath ending p = .ok loc ↔ '\x00' ∉ p.text.toList ∧
    p.text ≠ "" ∧ t.get? (t.start p) = some .directory ∧
      t.Leads ending maxLinks (t.start p) p.segments loc := by
  rw [← walk_eq_ok_iff, walkPath, start]
  by_cases hnul : '\x00' ∈ p.text.toList
  · simp [hnul]
  by_cases htext : p.text = ""
  · simp [htext]
  rw [if_neg hnul, if_neg htext]
  by_cases ha : p.isAbsolute = true
  · simp [hnul, htext, ha, get?]
  · by_cases hthere : t.get? t.workingDirectory = some .directory
    · simp [hnul, htext, ha, hthere]
    · simp [ha, hthere]

/-! The texts by which the places on the way are looked up. -/

section

variable {s target : String} {rest : List String}

theorem lookups_void (h : s = "" ∨ s = ".") :
    t.lookups links place (s :: rest) = t.lookups links place rest := by
  rw [lookups, if_pos h]

theorem lookups_up : t.lookups links place (".." :: rest) = t.lookups links place.tail rest := by
  rw [lookups, if_neg (by decide), if_pos rfl]

theorem lookups_directory (hname : IsName s) (h : t.get? (s :: place) = some .directory) :
    t.lookups links place (s :: rest) =
      (if asksForDirectory rest then pathOf (s :: place) ++ "/" else pathOf (s :: place)) ::
        t.lookups links (s :: place) rest := by
  rw [lookups, if_neg hname.not_void, if_neg hname.not_up, h]

theorem lookups_file (hname : IsName s) {content : ByteArray}
    (h : t.get? (s :: place) = some (.file content)) :
    t.lookups links place (s :: rest) = [pathOf (s :: place)] := by
  rw [lookups, if_neg hname.not_void, if_neg hname.not_up, h]

theorem lookups_link (hname : IsName s) (h : t.get? (s :: place) = some (.link target)) :
    t.lookups (links + 1) place (s :: rest) = pathOf (s :: place) ::
      t.lookups links (startOf target place) (Path.segments ⟨target⟩ ++ rest) := by
  rw [lookups, if_neg hname.not_void, if_neg hname.not_up, h]
  rfl

end

namespace Leads

/-- A walk can be cut before any segment. Its first part is that of a path of its own. -/
theorem split {xs ys : List String} (h : t.Leads ending links place (xs ++ ys) loc)
    (hys : ys ≠ []) :
    ∃ mid more, t.Leads .target links place xs mid ∧ t.Leads ending more mid ys loc := by
  generalize hsegments : xs ++ ys = segments at h
  induction h generalizing xs with
  | here => exact absurd (List.append_eq_nil_iff.mp hsegments).2 hys
  | void hvoid h ih =>
    cases xs with
    | nil =>
      obtain rfl : ys = _ := hsegments
      exact ⟨_, _, .here, .void hvoid h⟩
    | cons =>
      obtain ⟨rfl, hrest⟩ := List.cons.inj hsegments
      have ⟨mid, more, hmid, hloc⟩ := ih hrest
      exact ⟨mid, more, .void hvoid hmid, hloc⟩
  | up h ih =>
    cases xs with
    | nil =>
      obtain rfl : ys = _ := hsegments
      exact ⟨_, _, .here, .up h⟩
    | cons =>
      obtain ⟨rfl, hrest⟩ := List.cons.inj hsegments
      have ⟨mid, more, hmid, hloc⟩ := ih hrest
      exact ⟨mid, more, .up hmid, hloc⟩
  | down hname hfollow hdir h ih =>
    cases xs with
    | nil =>
      obtain rfl : ys = _ := hsegments
      exact ⟨_, _, .here, .down hname hfollow hdir h⟩
    | cons =>
      obtain ⟨rfl, hrest⟩ := List.cons.inj hsegments
      have ⟨mid, more, hmid, hloc⟩ := ih hrest
      exact ⟨mid, more, .down hname (mayFollow_target _) hdir hmid, hloc⟩
  | @file links _ _ _ hname hfile =>
    cases xs with
    | nil =>
      obtain rfl : ys = _ := hsegments
      exact ⟨_, links, .here, .file hname hfile⟩
    | cons => exact absurd (List.append_eq_nil_iff.mp (List.cons.inj hsegments).2).2 hys
  | @fresh links _ _ hname hnew hnone =>
    cases xs with
    | nil =>
      obtain rfl : ys = _ := hsegments
      exact ⟨_, links, .here, .fresh hname hnew hnone⟩
    | cons => exact absurd (List.append_eq_nil_iff.mp (List.cons.inj hsegments).2).2 hys
  | @link links _ _ _ hname hentry hlink =>
    cases xs with
    | nil =>
      obtain rfl : ys = _ := hsegments
      exact ⟨_, links, .here, .link hname hentry hlink⟩
    | cons => exact absurd (List.append_eq_nil_iff.mp (List.cons.inj hsegments).2).2 hys
  | @follow _ _ _ _ target _ hname hfollow hnot hlink h ih =>
    cases xs with
    | nil =>
      obtain rfl : ys = _ := hsegments
      exact ⟨_, _, .here, .follow hname hfollow hnot hlink h⟩
    | cons _ xs =>
      obtain ⟨rfl, rfl⟩ := List.cons.inj hsegments
      have ⟨mid, more, hmid, hloc⟩ := ih (List.append_assoc (Path.segments ⟨target⟩) xs ys)
      exact ⟨mid, more, .follow hname (mayFollow_target _) (by simp) hlink hmid, hloc⟩

/-- To what is there a path leads without its void segments as well. -/
theorem plain {xs ys : List String} (h : t.Leads .target links place (xs ++ ys) loc) :
    t.Leads .target links place (xs ++ Path.plain ys) loc := by
  generalize hsegments : xs ++ ys = segments at h
  induction h generalizing xs ys with
  | here =>
    obtain ⟨rfl, rfl⟩ := List.append_eq_nil_iff.mp hsegments
    exact .here
  | void hvoid _ ih =>
    cases xs with
    | nil =>
      rw [List.nil_append] at hsegments ⊢
      rw [hsegments, Path.plain_cons_void _ hvoid]
      exact ih (List.nil_append _)
    | cons =>
      obtain ⟨rfl, hrest⟩ := List.cons.inj hsegments
      exact .void hvoid (ih hrest)
  | up _ ih =>
    cases xs with
    | nil =>
      rw [List.nil_append] at hsegments ⊢
      rw [hsegments, Path.plain_cons_name _ (by decide)]
      exact .up (ih (List.nil_append _))
    | cons =>
      obtain ⟨rfl, hrest⟩ := List.cons.inj hsegments
      exact .up (ih hrest)
  | down hname _ hdir _ ih =>
    cases xs with
    | nil =>
      rw [List.nil_append] at hsegments ⊢
      rw [hsegments, Path.plain_cons_name _ hname.not_void]
      exact .down hname (mayFollow_target _) hdir (ih (List.nil_append _))
    | cons =>
      obtain ⟨rfl, hrest⟩ := List.cons.inj hsegments
      exact .down hname (mayFollow_target _) hdir (ih hrest)
  | file hname hfile =>
    have hplain : Path.plain [_] = [_] := Path.plain_cons_name [] hname.not_void
    cases xs with
    | nil =>
      rw [List.nil_append] at hsegments ⊢
      rw [hsegments, hplain]
      exact .file hname hfile
    | cons =>
      obtain ⟨rfl, hrest⟩ := List.cons.inj hsegments
      obtain ⟨rfl, rfl⟩ := List.append_eq_nil_iff.mp hrest
      exact .file hname hfile
  | fresh _ hnew => contradiction
  | link _ hentry => contradiction
  | @follow _ _ _ rest target _ hname _ hnot hlink _ ih =>
    cases xs with
    | nil =>
      rw [List.nil_append] at hsegments ⊢
      rw [hsegments, Path.plain_cons_name _ hname.not_void]
      exact .follow hname (mayFollow_target _) (by simp) hlink (ih rfl)
    | cons _ xs =>
      obtain ⟨rfl, rfl⟩ := List.cons.inj hsegments
      have hinner := ih (List.append_assoc (Path.segments ⟨target⟩) xs ys)
      rw [List.append_assoc] at hinner
      exact .follow hname (mayFollow_target _) (by simp) hlink hinner

theorem of_void {voids : List String} (hvoid : ∀ v ∈ voids, v = "" ∨ v = ".")
    (h : t.Leads ending links place segments loc) :
    t.Leads ending links place (voids ++ segments) loc := by
  induction voids with
  | nil => exact h
  | cons v voids ih =>
    exact .void (hvoid v List.mem_cons_self) (ih fun w hw => hvoid w (List.mem_cons_of_mem _ hw))

/-- To a directory lead all paths that differ in their void segments alone. A file ends its path, so
it is not found through a dot. -/
theorem congr_plain {others : List String} (h : t.Leads .target links place segments loc)
    (hdir : t.get? loc = some .directory) (hplain : Path.plain others = Path.plain segments) :
    t.Leads .target links place others loc := by
  induction h generalizing others with
  | here =>
    rw [← List.append_nil others]
    exact of_void (Path.plain_eq_nil_iff.mp hplain) .here
  | void hvoid _ ih =>
    rw [Path.plain_cons_void _ hvoid] at hplain
    exact ih hdir hplain
  | up _ ih =>
    rw [Path.plain_cons_name _ (by decide)] at hplain
    obtain ⟨voids, rest, rfl, hvoid, hrest⟩ := Path.exists_of_plain_eq_cons hplain
    exact of_void hvoid (.up (ih hdir hrest))
  | down hname _ hstands _ ih =>
    rw [Path.plain_cons_name _ hname.not_void] at hplain
    obtain ⟨voids, rest, rfl, hvoid, hrest⟩ := Path.exists_of_plain_eq_cons hplain
    exact of_void hvoid (.down hname (mayFollow_target _) hstands (ih hdir hrest))
  | file _ hfile =>
    rw [hfile] at hdir
    simp at hdir
  | fresh _ hnew => contradiction
  | link _ hentry => contradiction
  | follow hname _ _ hlink _ ih =>
    rw [Path.plain_cons_name _ hname.not_void] at hplain
    obtain ⟨voids, rest, rfl, hvoid, hrest⟩ := Path.exists_of_plain_eq_cons hplain
    refine of_void hvoid (.follow hname (mayFollow_target _) (by simp) hlink (ih hdir ?_))
    rw [Path.plain_append, Path.plain_append, hrest]

theorem eq_of_directory {s : String} (h : t.Leads ending links place [s] loc) (hname : IsName s)
    (hdir : t.get? (s :: place) = some .directory) : loc = s :: place := by
  rw [← walk_eq_ok_iff, walk, if_neg hname.not_void, if_neg hname.not_up,
    if_neg (mayFollow_nil ending), if_neg (Nat.not_lt.mpr hname.short), hdir] at h
  simp only [walk] at h
  exact (Except.ok.inj h).symm

/-- Where a file would be made and one stands, the path leads to that file. -/
theorem target_of_newFile {content : ByteArray} (h : t.Leads .newFile links place segments loc)
    (hfile : t.get? loc = some (.file content)) : t.Leads .target links place segments loc := by
  induction h with
  | here => exact .here
  | void hvoid _ ih => exact .void hvoid (ih hfile)
  | up _ ih => exact .up (ih hfile)
  | down hname _ hdir _ ih => exact .down hname (mayFollow_target _) hdir (ih hfile)
  | file hname hstands => exact .file hname hstands
  | fresh _ _ hnone =>
    rw [hnone] at hfile
    contradiction
  | link _ hentry => contradiction
  | follow hname _ _ hlink _ ih =>
    exact .follow hname (mayFollow_target _) (by simp) hlink (ih hfile)

end Leads

end Sidecar.FileTree
