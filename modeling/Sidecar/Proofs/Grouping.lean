import Mathlib
import Sidecar.Collision

/-! Files grouped by their content ids. After each file the groups tell what the files up to there
say: which ids there are, in which order they first occurred, and which paths have them. From this
it follows which collisions are found, in which order, and that no path of one is lost. -/

namespace Sidecar

namespace Generation

/-- The content id of a file. -/
def idOf (d : Domain) (file : ResolvedFile) : String :=
  Identity.contentId d file.relPath

/-- The paths of the files that have a content id. -/
def pathsOfId (d : Domain) (files : List ResolvedFile) (id : String) : List String :=
  (files.filter fun f => idOf d f = id).map ResolvedFile.relPath

theorem pathsOfId_concat (d : Domain) (files : List ResolvedFile) (file : ResolvedFile)
    (id : String) : pathsOfId d (files ++ [file]) id =
      pathsOfId d files id ++ if idOf d file = id then [file.relPath] else [] := by
  unfold pathsOfId
  rw [List.filter_append, List.map_append, List.filter_singleton]
  by_cases h : idOf d file = id <;> simp [h]

theorem pathsOfId_eq_nil_iff {d : Domain} {files : List ResolvedFile} {id : String} :
    pathsOfId d files id = [] ↔ id ∉ files.map (idOf d) := by
  simp [pathsOfId]

theorem length_pathsOfId (d : Domain) (files : List ResolvedFile) (id : String) :
    (pathsOfId d files id).length = (files.map (idOf d)).count id := by
  unfold pathsOfId
  rw [List.length_map, ← List.countP_eq_length_filter, List.count, List.countP_map]
  apply List.countP_congr
  intro f _
  simp

end Generation

open Generation

namespace Groups

/-- What the groups tell of files: the ids in the order of their first files, and with each id the
paths of all its files. -/
structure Tell (d : Domain) (files : List ResolvedFile) (g : Groups) : Prop where
  order : g.order = (files.map (idOf d)).eraseDups
  paths : ∀ id, g.paths[id]? =
    if id ∈ files.map (idOf d) then some (pathsOfId d files id) else none

section

variable {d : Domain} {files : List ResolvedFile} {g : Groups}

theorem eraseDups_concat (ids : List String) (id : String) :
    (ids ++ [id]).eraseDups = if id ∈ ids then ids.eraseDups else ids.eraseDups ++ [id] := by
  rw [List.eraseDups_append]
  split
  next h => simp [List.removeAll, h]
  next h => simp [List.removeAll, h, List.eraseDups_cons]

theorem tell_empty (d : Domain) : Tell d [] .empty := by
  constructor
  · simp [empty]
  · intro id
    simp [empty]

/-- The group that a file joins holds the files before it. -/
theorem Tell.getD_paths (h : Tell d files g) (id : String) :
    g.paths.getD id [] = pathsOfId d files id := by
  rw [Std.HashMap.getD_eq_getD_getElem?, h.paths]
  split
  next => rfl
  next hnot => exact (pathsOfId_eq_nil_iff.mpr hnot).symm

theorem Tell.add (h : Tell d files g) (file : ResolvedFile) :
    Tell d (files ++ [file]) (g.add d file) := by
  constructor
  · rw [List.map_append, List.map_singleton, eraseDups_concat, ← h.order]
    show (if (g.paths.getD (idOf d file) []).isEmpty then _ else _) = _
    rw [h.getD_paths]
    -- an id is new exactly if its group is empty
    by_cases hmem : idOf d file ∈ files.map (idOf d)
    · have hne := mt pathsOfId_eq_nil_iff.mp (not_not_intro hmem)
      rw [if_pos hmem, if_neg (by simpa using hne)]
    · rw [if_neg hmem, if_pos (by simpa using pathsOfId_eq_nil_iff.mpr hmem)]
      rfl
  · intro id
    show (g.paths.insert (idOf d file) (g.paths.getD (idOf d file) [] ++ [file.relPath]))[id]? = _
    rw [Std.HashMap.getElem?_insert, h.getD_paths, h.paths, pathsOfId_concat]
    by_cases hid : idOf d file = id
    · simp [hid]
    · have hback : id ≠ idOf d file := Ne.symm hid
      simp [hid, hback]

theorem Tell.foldl (h : Tell d files g) (more : List ResolvedFile) :
    Tell d (files ++ more) (more.foldl (Groups.add d) g) := by
  induction more generalizing files g with
  | nil => simpa using h
  | cons file more ih =>
    rw [List.append_cons]
    exact ih (h.add file)

/-- Each group is taken out once, so that those before it do not matter. -/
theorem drain_eq {paths : Std.HashMap String (List String)} {order : List String}
    (h : order.Nodup) : drain paths order = order.filterMap fun id =>
      (paths[id]?).bind fun group => if 1 < group.length then some ⟨id, group⟩ else none := by
  induction order generalizing paths with
  | nil => rfl
  | cons id rest ih =>
    have ⟨hnot, hrest⟩ := List.nodup_cons.mp h
    have hkept : ∀ other ∈ rest, (paths.erase id)[other]? = paths[other]? := by
      intro other hother
      have hne : id ≠ other := fun heq => hnot (heq ▸ hother)
      rw [Std.HashMap.getElem?_erase, if_neg (by simpa using hne)]
    unfold drain
    rw [List.filterMap_cons]
    cases paths[id]? with
    | none => exact ih hrest
    | some group =>
      have hmore : drain (paths.erase id) rest = _ := ih hrest
      rw [List.filterMap_congr fun other hother => by rw [hkept other hother]] at hmore
      rw [hmore]
      by_cases hlong : 1 < group.length <;> simp [hlong]

end

end Groups

/-- Without repetitions, ids stand in the order in which they first occur. -/
theorem pairwise_idxOf_eraseDups (ids : List String) :
    ids.eraseDups.Pairwise fun a b => ids.idxOf a < ids.idxOf b := by
  induction ids using List.reverseRecOn with
  | nil => simp
  | append_singleton ids id ih =>
    have hold : ∀ a ∈ ids, (ids ++ [id]).idxOf a = ids.idxOf a :=
      fun a ha => List.idxOf_append_of_mem ha
    have hkept : ids.eraseDups.Pairwise fun a b =>
        (ids ++ [id]).idxOf a < (ids ++ [id]).idxOf b := by
      apply ih.imp_of_mem
      intro a b ha hb hlt
      rwa [hold a (List.mem_eraseDups.mp ha), hold b (List.mem_eraseDups.mp hb)]
    rw [Groups.eraseDups_concat]
    split
    next => exact hkept
    next hnew =>
      rw [List.pairwise_append]
      refine ⟨hkept, List.pairwise_singleton _ _, ?_⟩
      intro a ha b hb
      have ha : a ∈ ids := List.mem_eraseDups.mp ha
      rw [List.mem_singleton.mp hb, hold a ha, List.idxOf_append_of_notMem hnew]
      have := List.idxOf_lt_length_of_mem ha
      omega

theorem nodup_of_pairwise_idxOf {ids order : List String}
    (h : order.Pairwise fun a b => ids.idxOf a < ids.idxOf b) : order.Nodup := by
  apply h.imp
  rintro a _ hlt rfl
  exact Nat.lt_irrefl _ hlt

/-- The groups of more than one file, in the order of the ids. -/
theorem collisions_eq (d : Domain) (files : List ResolvedFile) :
    collisions d files = (files.map (idOf d)).eraseDups.filterMap fun id =>
      if 1 < (pathsOfId d files id).length then some ⟨id, pathsOfId d files id⟩ else none := by
  have htell : Groups.Tell d files (files.foldl (Groups.add d) .empty) :=
    (Groups.tell_empty d).foldl files
  have hnodup := nodup_of_pairwise_idxOf (pairwise_idxOf_eraseDups (files.map (idOf d)))
  show Groups.drain _ (files.foldl (Groups.add d) .empty).order = _
  rw [htell.order, Groups.drain_eq hnodup]
  apply List.filterMap_congr
  intro id hid
  rw [htell.paths, if_pos (List.mem_eraseDups.mp hid)]
  rfl

/-- What the collisions among files are, however they are found. -/
structure AreCollisions (d : Domain) (files : List ResolvedFile) (cs : List Collision) : Prop where
  /-- The ids that at least two of the files have. -/
  shared : ∀ id, id ∈ cs.map Collision.contentId ↔ 2 ≤ (files.map (idOf d)).count id
  /-- Each comes with the paths of all files that have it, in the order of the files. -/
  paths : ∀ c ∈ cs, c.paths = pathsOfId d files c.contentId
  /-- They stand in the order of the first files that have them; so none is told twice. -/
  order : (cs.map Collision.contentId).Pairwise fun a b =>
    (files.map (idOf d)).idxOf a < (files.map (idOf d)).idxOf b

section

variable {d : Domain} {files : List ResolvedFile} {cs : List Collision}

theorem areCollisions_collisions (d : Domain) (files : List ResolvedFile) :
    AreCollisions d files (collisions d files) := by
  have hids : (collisions d files).map Collision.contentId =
      (files.map (idOf d)).eraseDups.filter fun id => 2 ≤ (files.map (idOf d)).count id := by
    rw [collisions_eq, List.map_filterMap, ← List.filterMap_eq_filter]
    apply List.filterMap_congr
    intro id _
    by_cases h : 1 < (pathsOfId d files id).length
    · rw [if_pos h]
      rw [length_pathsOfId] at h
      simp [Option.guard, Nat.succ_le_iff.mpr h]
    · rw [if_neg h]
      rw [length_pathsOfId] at h
      have : ¬2 ≤ (files.map (idOf d)).count id := by omega
      simp [Option.guard, this]
  constructor
  · intro id
    rw [hids, List.mem_filter, List.mem_eraseDups, decide_eq_true_eq, and_iff_right_iff_imp]
    intro hcount
    apply List.count_pos_iff.mp
    omega
  · intro c hc
    rw [collisions_eq, List.mem_filterMap] at hc
    obtain ⟨id, _, hid⟩ := hc
    split at hid
    · obtain rfl := Option.some.inj hid
      rfl
    · contradiction
  · rw [hids]
    exact (pairwise_idxOf_eraseDups _).filter _

/-- Collisions are told by their ids alone. -/
theorem AreCollisions.eq_map (h : AreCollisions d files cs) :
    cs = (cs.map Collision.contentId).map fun id => ⟨id, pathsOfId d files id⟩ := by
  have hsame : ∀ c ∈ cs, c = ⟨c.contentId, pathsOfId d files c.contentId⟩ := by
    intro c hc
    rw [← h.paths c hc]
  rw [List.map_map]
  calc cs = cs.map id := (List.map_id cs).symm
    _ = _ := List.map_congr_left hsame

/-- Two orders of the same ids by their first files are one order. -/
theorem AreCollisions.unique {others : List Collision} (h : AreCollisions d files cs)
    (h' : AreCollisions d files others) : cs = others := by
  let before (a b : String) : Prop := (files.map (idOf d)).idxOf a < (files.map (idOf d)).idxOf b
  have hirrefl : Std.Irrefl before := ⟨fun a => Nat.lt_irrefl _⟩
  have hantisymm : Std.Antisymm before := ⟨fun a b hab hba => absurd hab (Nat.lt_asymm hba)⟩
  have hids : cs.map Collision.contentId = others.map Collision.contentId :=
    List.Pairwise.eq_of_mem_iff h.order h'.order fun id => (h.shared id).trans (h'.shared id).symm
  rw [h.eq_map, h'.eq_map, hids]

theorem AreCollisions.eq_nil_iff (h : AreCollisions d files cs) :
    cs = [] ↔ (files.map (idOf d)).Nodup := by
  rw [List.nodup_iff_count_le_one, ← List.map_eq_nil_iff (f := Collision.contentId),
    List.eq_nil_iff_forall_not_mem]
  apply forall_congr'
  intro id
  rw [h.shared]
  omega

/-- Files whose ids are among others, one group after another, are all the files with these ids. -/
theorem perm_flatMap_pathsOfId {ids : List String} (h : ids.Nodup) :
    (ids.flatMap (pathsOfId d files)).Perm
      ((files.filter fun f => idOf d f ∈ ids).map ResolvedFile.relPath) := by
  induction ids with
  | nil => simp
  | cons id rest ih =>
    have ⟨hnot, hrest⟩ := List.nodup_cons.mp h
    have hown : (files.filter fun f => idOf d f ∈ id :: rest).filter (fun f => idOf d f = id) =
        files.filter fun f => idOf d f = id := by
      rw [List.filter_filter]
      apply List.filter_congr
      intro f _
      by_cases hid : idOf d f = id <;> simp [hid]
    have hothers : (files.filter fun f => idOf d f ∈ id :: rest).filter
        (fun f => !decide (idOf d f = id)) = files.filter fun f => idOf d f ∈ rest := by
      rw [List.filter_filter]
      apply List.filter_congr
      intro f _
      by_cases hid : idOf d f = id <;> simp [hid, hnot]
    have hsplit := List.filter_append_perm (fun f => decide (idOf d f = id))
      (files.filter fun f => idOf d f ∈ id :: rest)
    rw [hown, hothers] at hsplit
    rw [List.flatMap_cons]
    apply ((ih hrest).append_left _).trans
    have := hsplit.map ResolvedFile.relPath
    rwa [List.map_append] at this

theorem AreCollisions.perm_paths (h : AreCollisions d files cs) :
    (cs.flatMap Collision.paths).Perm ((files.filter fun f =>
      2 ≤ (files.map (idOf d)).count (idOf d f)).map ResolvedFile.relPath) := by
  have hgroups : cs.flatMap Collision.paths =
      (cs.map Collision.contentId).flatMap (pathsOfId d files) := by
    rw [List.flatMap_map]
    exact List.flatMap_congr h.paths
  have hshared : (files.filter fun f => 2 ≤ (files.map (idOf d)).count (idOf d f)) =
      files.filter fun f => idOf d f ∈ cs.map Collision.contentId := by
    apply List.filter_congr
    intro f _
    exact decide_eq_decide.mpr (h.shared _).symm
  rw [hgroups, hshared]
  exact perm_flatMap_pathsOfId (nodup_of_pairwise_idxOf h.order)

/-- The collisions among files are the ids that several of them have, each once and with all its
files, in the order of their first files. -/
theorem collisions_exact (d : Domain) (files : List ResolvedFile) :
    (∀ cs, cs = collisions d files ↔ AreCollisions d files cs) ∧
    ((collisions d files).map Collision.contentId).Nodup ∧
    ((collisions d files).flatMap Collision.paths).Perm ((files.filter fun f =>
      2 ≤ (files.map (idOf d)).count (idOf d f)).map ResolvedFile.relPath) ∧
    (collisions d files = [] ↔ (files.map (idOf d)).Nodup) := by
  have hare := areCollisions_collisions d files
  refine ⟨?_, nodup_of_pairwise_idxOf hare.order, hare.perm_paths, hare.eq_nil_iff⟩
  intro cs
  constructor
  · rintro rfl
    exact hare
  · intro h
    exact h.unique hare

end

end Sidecar
