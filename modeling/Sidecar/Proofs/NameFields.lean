import Mathlib
import Sidecar.Proofs.ContentIds
import Sidecar.Proofs.Parts
import Sidecar.Proofs.Years

/-! What the fields of a record that come from a file's name have to do with each other. The year is
sought in the name without its last extension, the media type is told by that extension as it is
spelled, and the content id leaves out a known extension in any spelling. -/

namespace Sidecar

namespace Path

/-! The two parts of a name. -/

section

variable {name stem ext : String}

theorem splitExtension_of_some (h : splitExtension name = (stem, some ext)) :
    name.toList = stem.toList ++ '.' :: ext.toList := by
  simp only [splitExtension] at h
  split at h
  · simp at h
  next hne =>
    simp only [Prod.mk.injEq, Option.some.injEq] at h
    obtain ⟨rfl, rfl⟩ := h
    cases hdrop : name.toList.reverse.dropWhile (· ≠ '.') with
    | nil => exact absurd (by rw [hdrop]; rfl) hne
    | cons c before =>
      rw [String.toList_ofList, String.toList_ofList]
      exact Identity.eq_append_of_dropWhile hdrop

theorem splitExtension_of_none (h : splitExtension name = (stem, none)) : stem = name := by
  simp only [splitExtension] at h
  split at h
  · exact (Prod.mk.inj h).1.symm
  · simp at h

theorem splitExtension_prefix (name : String) : (splitExtension name).1.toList <+: name.toList := by
  cases h : splitExtension name with
  | mk stem ext? =>
    cases ext? with
    | none => rw [splitExtension_of_none h]
    | some ext => exact ⟨_, (splitExtension_of_some h).symm⟩

end

/-! The text behind the last slash. -/

/-- A relative path whose text ends in the name that is its last part. -/
structure EndsIn (relPath name : String) : Prop where
  fileName : (⟨relPath⟩ : Path).fileName? = some name
  suffix : name.toList <:+ relPath.toList

end Path

namespace Identity

open Text Digits

section LastSegment

variable {relPath name : String}

theorem exists_segments_eq (relPath : String) : ∃ before,
    (⟨relPath⟩ : Path).segments = before ++ [String.ofList (lastSegment relPath.toList)] := by
  obtain ⟨hslash, hpath⟩ := isLastSegment_lastSegment relPath.toList
  have hlast : (pieces '/' (lastSegment relPath.toList)).map String.ofList =
      [String.ofList (lastSegment relPath.toList)] := by
    rw [pieces_eq_singleton hslash, List.map_singleton]
  rcases hpath with hwhole | ⟨dir, hdir⟩
  · refine ⟨[], ?_⟩
    rw [Path.segments, piecesOf]
    conv => lhs; rw [hwhole]
    exact hlast
  · refine ⟨(pieces '/' dir).map String.ofList, ?_⟩
    rw [Path.segments, piecesOf]
    conv => lhs; rw [hdir]
    rw [pieces_append_cons, List.map_append, hlast]

/-- Behind its last slash a path has its last name, unless something void stands there. -/
theorem lastSegment_of_fileName (h : (⟨relPath⟩ : Path).fileName? = some name) :
    lastSegment relPath.toList = name.toList ∨ lastSegment relPath.toList = [] ∨
      lastSegment relPath.toList = ['.'] := by
  obtain ⟨above, hparts⟩ := Path.fileName?_eq_some_iff.mp h
  obtain ⟨before, hsegments⟩ := exists_segments_eq relPath
  have hne : (⟨relPath⟩ : Path).text ≠ "" := by
    intro hempty
    rw [Path.parts, if_pos hempty] at hparts
    simp at hparts
  cases before with
  | nil =>
    rw [Path.parts_eq hne hsegments] at hparts
    obtain rfl : above = [] := by simpa using congrArg List.length hparts
    have := Path.Part.ofFirst_eq_name_iff.mp (List.cons.inj hparts).1
    exact .inl (by rw [← this.1, String.toList_ofList])
  | cons first rest =>
    rw [List.cons_append] at hsegments
    rw [Path.parts_eq hne hsegments, List.filterMap_append, ← List.cons_append] at hparts
    cases hpart : Path.Part.ofInner? (String.ofList (lastSegment relPath.toList)) with
    | some part =>
      rw [List.filterMap_cons_some hpart, List.filterMap_nil] at hparts
      have hlast := (List.append_inj' hparts rfl).2
      rw [(List.cons.inj hlast).1] at hpart
      have := Path.Part.ofInner?_eq_some_name_iff.mp hpart
      exact .inl (by rw [← this.1, String.toList_ofList])
    | none =>
      -- What stands behind the last slash is no part, so the name stands before it.
      right
      unfold Path.Part.ofInner? at hpart
      split at hpart
      next hvoid =>
        rw [← String.toList_inj, ← String.toList_inj, String.toList_ofList] at hvoid
        exact hvoid
      next => split at hpart <;> contradiction

theorem suffix_lastSegment {path name : List Char} (hslash : '/' ∉ name) (h : name <:+ path) :
    name <:+ lastSegment path := by
  rcases (isLastSegment_lastSegment path).2 with hwhole | ⟨dir, hdir⟩
  · exact hwhole ▸ h
  · have hlast : '/' :: lastSegment path <:+ path := ⟨dir, hdir.symm⟩
    rcases List.suffix_or_suffix_of_suffix h hlast with hshort | hlong
    · rcases List.suffix_cons_iff.mp hshort with rfl | hsuffix
      · exact absurd List.mem_cons_self hslash
      · exact hsuffix
    · exact absurd (hlong.subset List.mem_cons_self) hslash

theorem lastSegment_of_endsIn (h : Path.EndsIn relPath name) :
    lastSegment relPath.toList = name.toList := by
  obtain ⟨above, hparts⟩ := Path.fileName?_eq_some_iff.mp h.fileName
  have ⟨hempty, hdot, _, hslash⟩ :=
    Path.name_of_mem_parts (hparts ▸ List.mem_append_right above (List.mem_singleton_self _))
  have hsuffix := suffix_lastSegment hslash h.suffix
  rcases lastSegment_of_fileName h.fileName with heq | hnil | hhere
  · exact heq
  · rw [hnil, List.suffix_nil] at hsuffix
    exact absurd (String.toList_inj.mp hsuffix) hempty
  · rw [hhere, List.suffix_cons_iff, List.suffix_nil] at hsuffix
    rcases hsuffix with hsuffix | hsuffix
    · exact absurd (String.toList_inj.mp hsuffix) hdot
    · exact absurd (String.toList_inj.mp hsuffix) hempty

theorem token_of_not_endsIn (h : (⟨relPath⟩ : Path).fileName? = some name)
    (hends : ¬name.toList <:+ relPath.toList) : token relPath = [] := by
  have hlast : lastSegment relPath.toList <:+ relPath.toList := by
    rcases (isLastSegment_lastSegment relPath.toList).2 with hwhole | ⟨dir, hdir⟩
    · exact hwhole ▸ List.suffix_refl _
    · exact ⟨dir ++ ['/'], by rw [List.append_assoc]; exact hdir.symm⟩
  unfold token
  rcases lastSegment_of_fileName h with heq | hnil | hhere
  · exact absurd (heq ▸ hlast) hends
  · rw [hnil]
    decide
  · rw [hhere]
    decide

end LastSegment

/-! Years in ids. -/

section Year

variable {w cs ext : List Char}

theorem not_isDigit_of_isExtension (h : IsExtension ext) : ∀ c ∈ ext, c.isDigit = false := by
  have hletters : ∀ known ∈ [".json", ".csv", ".sql"], ∀ l ∈ known.toList,
      l.isDigit = false ∧ l.toUpper.isDigit = false := by
    simp
  obtain ⟨known, hknown, hspelled⟩ := h
  have hdigits := hletters known hknown
  clear hknown
  generalize known.toList = letters at hspelled hdigits
  induction hspelled with
  | nil => simp
  | cons hletter _ ih =>
    have ⟨hlower, hletters⟩ := List.forall_mem_cons.mp hdigits
    refine List.forall_mem_cons.mpr ⟨?_, ih hletters⟩
    rcases hletter with rfl | rfl | ⟨_, rfl⟩
    · exact hlower.1
    · exact hlower.2
    · decide

theorem IsStem.infix_of_infix {name stem : List Char} (h : IsStem name stem) (hdigits : AreDigits w)
    (hne : w ≠ []) (hw : w <:+: name) : w <:+: stem := by
  rcases h with ⟨ext, hext, rfl⟩ | ⟨_, rfl⟩
  · -- An extension has no digits, so digits that reach across the cut have nothing behind it.
    have hnone (part : List Char) (hpart : ∀ c ∈ part, c ∈ w) (hmem : ∀ c ∈ part, c ∈ ext) :
        part = [] := by
      rw [List.eq_nil_iff_forall_not_mem]
      intro c hc
      have hdigit := hdigits c (hpart c hc)
      rw [not_isDigit_of_isExtension hext c (hmem c hc)] at hdigit
      contradiction
    rcases List.infix_append_iff.mp hw with hstem | hinext | ⟨front, back, rfl, hfront, hback⟩
    · exact hstem
    · exact absurd (hnone w (fun _ hc => hc) fun _ hc => hinext.subset hc) hne
    · have hnil := hnone back (fun _ hc => List.mem_append_right _ hc) fun _ hc => hback.subset hc
      rw [hnil, List.append_nil]
      exact hfront.isInfix
  · exact hw

theorem exists_underscored_append (before : List Char) (hne : cs ≠ []) :
    ∃ front, underscored (before ++ cs) = front ++ underscored cs := by
  induction before with
  | nil => exact ⟨[], rfl⟩
  | cons c before ih =>
    obtain ⟨front, hfront⟩ := ih
    obtain ⟨d, rest, hd⟩ :=
      List.exists_cons_of_ne_nil (List.append_ne_nil_of_right_ne_nil before hne)
    rw [hd] at hfront
    rw [List.cons_append, hd]
    simp only [underscored]
    split
    · exact ⟨c :: front, by rw [hfront]; rfl⟩
    · split
      · exact ⟨'_' :: front, by rw [hfront]; rfl⟩
      · exact ⟨front, hfront⟩

theorem infix_dropWhile {p : Char → Bool} (h : w <:+: cs) (hw : ∀ c ∈ w, p c = false) :
    w <:+: cs.dropWhile p := by
  induction cs with
  | nil => exact h
  | cons c cs ih =>
    by_cases hc : p c = true
    · rw [List.dropWhile_cons_of_pos hc]
      rcases List.infix_cons_iff.mp h with hfront | hrest
      · cases w with
        | nil => exact List.nil_infix
        | cons d w =>
          obtain rfl := (List.cons_prefix_cons.mp hfront).1
          have := hw d List.mem_cons_self
          rw [hc] at this
          contradiction
      · exact ih hrest
    · rwa [List.dropWhile_cons_of_neg hc]

theorem infix_trimUnderscores (h : w <:+: cs) (hw : '_' ∉ w) : w <:+: trimUnderscores cs := by
  have hstop : ∀ c ∈ w, (c == '_') = false := by
    intro c hc
    rw [beq_eq_false_iff_ne]
    rintro rfl
    exact hw hc
  unfold trimUnderscores
  rw [← List.reverse_infix, List.reverse_reverse]
  refine infix_dropWhile (List.reverse_infix.mpr (infix_dropWhile h hstop)) ?_
  exact fun c hc => hstop c (List.mem_reverse.mp hc)

theorem toUpper_of_isDigit {c : Char} (h : c.isDigit = true) : c.toUpper = c := by
  apply Char.toUpper_eq_of_not_isLower
  intro hlower
  have hdigit := toNat_bounds h
  rw [Char.isLower, Bool.and_eq_true, decide_eq_true_eq, decide_eq_true_eq] at hlower
  have hletter : 'a'.toNat ≤ c.toNat := UInt32.le_iff_toNat_le.mp hlower.1
  have hfirst : 'a'.toNat = 97 := rfl
  omega

/-- Digits in a stem are digits in the token that is made of it. -/
theorem infix_token {path : String} {name stem : List Char} (hname : IsLastSegment path.toList name)
    (hstem : IsStem name stem) (hdigits : AreDigits w) (hne : w ≠ []) (hw : w <:+: stem) :
    w <:+: token path := by
  have hletters : ∀ c ∈ w, isLetterOrDigit c = true := by
    intro c hc
    rw [isLetterOrDigit, Char.isAlphanum, hdigits c hc, Bool.or_true]
  have hcapital : w.map Char.toUpper = w := by
    rw [List.map_congr_left fun c hc => toUpper_of_isDigit (hdigits c hc), List.map_id']
  have hunderscore : '_' ∉ w := by
    intro hmem
    have := hdigits _ hmem
    contradiction
  obtain ⟨before, after, rfl⟩ := hw
  rw [List.append_assoc] at hstem
  obtain ⟨front, hfront⟩ := exists_underscored_append before
    (List.append_ne_nil_of_left_ne_nil hne after)
  unfold token
  rw [hname.eq, hstem.eq, hfront, underscored_append_run hletters]
  refine infix_trimUnderscores ?_ hunderscore
  rw [List.map_append, List.map_append, hcapital, ← List.append_assoc]
  exact List.infix_append _ _ _

end Year

/-! Words in ids. -/

theorem isStem_of_known {name stem ext : List Char}
    (hext : ext ∈ [".json", ".csv", ".sql"].map String.toList) (h : name = stem ++ ext) :
    IsStem name stem := by
  obtain ⟨known, hknown, rfl⟩ := List.mem_map.mp hext
  have hspelled : List.Forall₂ IsLetter known.toList known.toList :=
    List.forall₂_same.mpr fun _ _ => .inl rfl
  exact .inl ⟨_, ⟨known, hknown, hspelled⟩, h⟩

/-- A name with a media type of its own ends in a known extension, and both stems are the same. -/
theorem isStem_of_mediaType {path : Path} {name : String} (hname : path.fileName? = some name)
    (h : mediaType path ≠ "application/octet-stream") : IsStem name.toList path.stem.toList := by
  have hext : path.extension? = (Path.splitExtension name).2 := by rw [Path.extension?, hname]; rfl
  have hstem : path.stem = (Path.splitExtension name).1 := by rw [Path.stem, hname]
  have hsplit (ext : String) (heq : path.extension? = some ext) :
      name.toList = path.stem.toList ++ '.' :: ext.toList :=
    Path.splitExtension_of_some (Prod.ext hstem.symm (hext.symm.trans heq))
  unfold mediaType at h
  split at h
  next heq => exact isStem_of_known (by decide) (hsplit _ heq)
  next heq => exact isStem_of_known (by decide) (hsplit _ heq)
  next heq => exact isStem_of_known (by decide) (hsplit _ heq)
  next => contradiction

section NameFields

variable {d : Domain} {path : Path} {relPath name : String}

theorem isLastSegment_of_endsIn (h : Path.EndsIn relPath name) :
    IsLastSegment relPath.toList name.toList :=
  lastSegment_of_endsIn h ▸ isLastSegment_lastSegment relPath.toList

theorem year_coheres (hpath : path.fileName? = some name) (hrel : Path.EndsIn relPath name)
    {y : Int32} (hy : inferYear path.stem = some y) :
    (toString y.toInt).toList <:+: (contentId d relPath).toList := by
  obtain ⟨i, hi, hvalue⟩ := inferYear_eq_some_iff.mp hy
  have hyear := hi.year
  have hne : window path.stem.toList i ≠ [] :=
    List.ne_nil_of_length_pos (by rw [hyear.length]; decide)
  have hname : window path.stem.toList i <:+: name.toList := by
    have hstem : path.stem = (Path.splitExtension name).1 := by rw [Path.stem, hpath]
    have hprefix : path.stem.toList <+: name.toList := hstem ▸ Path.splitExtension_prefix name
    exact ((List.take_prefix _ _).isInfix.trans (List.drop_suffix _ _).isInfix).trans
      hprefix.isInfix
  have hstem := isStem_withoutExtension name.toList
  have htoken := infix_token (isLastSegment_of_endsIn hrel) hstem hyear.areDigits hne
    (hstem.infix_of_infix hyear.areDigits hne hname)
  rw [hvalue, hyear.toString_eq, contentId, String.toList_append, String.toList_ofList,
    String.toList_ofList]
  exact htoken.trans (List.suffix_append _ _).isInfix

theorem words_cohere (hpath : path.fileName? = some name) (hrel : Path.EndsIn relPath name)
    (hmedia : mediaType path ≠ "application/octet-stream") :
    ∃ runs, Runs path.stem.toList runs ∧ contentId d relPath = d.idPrefix ++ "_" ++
      String.ofList (Text.joined ['_'] (runs.map (List.map Char.toUpper))) := by
  have hruns := runs_alnumRuns path.stem.toList
  have hwords : HasWords relPath ((alnumRuns path.stem.toList).map (List.map Char.toUpper)) :=
    ⟨_, _, _, isLastSegment_of_endsIn hrel, isStem_of_mediaType hpath hmedia, hruns, rfl⟩
  exact ⟨_, hruns, by rw [contentId, hwords.token_eq]⟩

end NameFields

end Identity

namespace Record

open Identity

/-- What the fields that come from a name have to do with each other: the year stands in the content
id, and a media type of its own makes the content id that of the name's stem. -/
structure Coheres (r : Record) (stem : String) : Prop where
  year : ∀ y ∈ r.coverage.year, (toString y.toInt).toList <:+: r.contentId.toList
  words : r.artifact.mediaType ≠ "application/octet-stream" → ∃ runs, Runs stem.toList runs ∧
    r.contentId = r.domain.idPrefix ++ "_" ++
      String.ofList (Text.joined ['_'] (runs.map (List.map Char.toUpper)))

section

variable {path path' : Path} {relPath relPath' name : String} (ctx : RecordContext)
  (digest : String)

theorem assemble_congr (hpath : path.fileName? = path'.fileName?)
    (hrel : token relPath = token relPath') :
    assemble ctx path' relPath' digest = { assemble ctx path relPath digest with
      artifact := { (assemble ctx path relPath digest).artifact with path := relPath' } } := by
  have hid : Identity.contentId ctx.domain relPath =
      Identity.contentId ctx.domain relPath' := by
    rw [Identity.contentId, Identity.contentId, hrel]
  simp only [assemble, hid, Path.stem, mediaType, Path.extension?, hpath]

/-- The fields that come from a name cohere and say nothing of directories, if the relative path
ends in that name. With a slash or a `.` behind its last name it gives an id without words. -/
theorem assemble_coheres (hpath : path.fileName? = some name) (hrel : Path.EndsIn relPath name) :
    (assemble ctx path relPath digest).Coheres path.stem ∧
    (∀ (path' : Path) (relPath' : String), path'.fileName? = some name →
      Path.EndsIn relPath' name → assemble ctx path' relPath' digest =
        { assemble ctx path relPath digest with
          artifact := { (assemble ctx path relPath digest).artifact with path := relPath' } }) ∧
    ∀ relPath' : String, (⟨relPath'⟩ : Path).fileName? = some name →
      ¬name.toList <:+ relPath'.toList →
        (assemble ctx path relPath' digest).contentId = ctx.domain.idPrefix ++ "_" := by
  refine ⟨⟨?_, words_cohere hpath hrel⟩, ?_, ?_⟩
  · exact fun y hy => year_coheres hpath hrel hy
  · intro path' relPath' hpath' hrel'
    apply assemble_congr ctx digest (hpath.trans hpath'.symm)
    rw [token, token, lastSegment_of_endsIn hrel, lastSegment_of_endsIn hrel']
  · intro relPath' hname hends
    show Identity.contentId ctx.domain relPath' = _
    rw [Identity.contentId, token_of_not_endsIn hname hends, String.ofList_nil, String.append_empty]

end

theorem assemble_coheres_rates :
    let ctx : RecordContext := .new .tax "2024-01-15" none none
    let r := assemble ctx ⟨"/r/2019/Rates.2023.csv/"⟩ "2019/Rates.2023.csv" "00"
    ((⟨"/r/2019/Rates.2023.csv/"⟩ : Path).fileName? = some "Rates.2023.csv" ∧
      Path.EndsIn "2019/Rates.2023.csv" "Rates.2023.csv" ∧
      (⟨"Rates.2023.csv"⟩ : Path).fileName? = some "Rates.2023.csv" ∧
      Path.EndsIn "Rates.2023.csv" "Rates.2023.csv" ∧
      (⟨"Rates.2023.csv/."⟩ : Path).fileName? = some "Rates.2023.csv" ∧
      ¬"Rates.2023.csv".toList <:+ "Rates.2023.csv/.".toList) ∧
    (r.coverage.year = some 2023 ∧ r.contentId = "TAX_RATES_2023") ∧ r.Coheres "Rates.2023" ∧
    assemble ctx ⟨"Rates.2023.csv"⟩ "Rates.2023.csv" "00" =
      { r with artifact := { r.artifact with path := "Rates.2023.csv" } } ∧
    (assemble ctx ⟨"Rates.2023.csv"⟩ "Rates.2023.csv/." "00").contentId = "TAX_" := by
  intro ctx r
  have hpath : (⟨"/r/2019/Rates.2023.csv/"⟩ : Path).fileName? = some "Rates.2023.csv" := by cbv
  have hrel : Path.EndsIn "2019/Rates.2023.csv" "Rates.2023.csv" := ⟨by cbv, ⟨"2019/".toList, rfl⟩⟩
  have hpath' : (⟨"Rates.2023.csv"⟩ : Path).fileName? = some "Rates.2023.csv" := by cbv
  have hrel' : Path.EndsIn "Rates.2023.csv" "Rates.2023.csv" := ⟨hpath', List.suffix_refl _⟩
  have hvoid : (⟨"Rates.2023.csv/."⟩ : Path).fileName? = some "Rates.2023.csv" := by cbv
  have hends : ¬"Rates.2023.csv".toList <:+ "Rates.2023.csv/.".toList := by decide
  have hstem : (⟨"/r/2019/Rates.2023.csv/"⟩ : Path).stem = "Rates.2023" := by
    rw [Path.stem, hpath]
    decide
  have hyear : inferYear (⟨"/r/2019/Rates.2023.csv/"⟩ : Path).stem = some 2023 := by
    rw [hstem]
    decide
  have hid : Identity.contentId .tax "2019/Rates.2023.csv" = "TAX_RATES_2023" := by cbv
  obtain ⟨hcoheres, hmoved, -⟩ := assemble_coheres ctx "00" hpath hrel
  obtain ⟨-, -, hnoWords⟩ := assemble_coheres ctx "00" hpath' hrel'
  exact ⟨⟨hpath, hrel, hpath', hrel', hvoid, hends⟩, ⟨hyear, hid⟩, hstem ▸ hcoheres,
    hmoved _ _ hpath' hrel', hnoWords _ hvoid hends⟩

/-- A slash behind the name takes the words out of the id, and the year stays. -/
theorem not_coheres_finalSlash :
    (⟨"2023.csv"⟩ : Path).fileName? = some "2023.csv" ∧
    (⟨"2023.csv/"⟩ : Path).fileName? = some "2023.csv" ∧
    ¬(assemble (.new .tax "2024-01-15" none none) ⟨"2023.csv"⟩ "2023.csv/" "").Coheres "2023" := by
  have hpath : (⟨"2023.csv"⟩ : Path).fileName? = some "2023.csv" := by cbv
  refine ⟨hpath, by cbv, fun h => ?_⟩
  have hid : (assemble (.new .tax "2024-01-15" none none) ⟨"2023.csv"⟩ "2023.csv/" "").contentId =
      "TAX_" := by
    exact (by cbv : Identity.contentId .tax "2023.csv/" = "TAX_")
  have hstem : (⟨"2023.csv"⟩ : Path).stem = "2023" := by
    rw [Path.stem, hpath]
    decide
  have hinferred : inferYear (⟨"2023.csv"⟩ : Path).stem = some 2023 := by
    rw [hstem]
    decide
  have hyear := h.year 2023 hinferred
  rw [hid] at hyear
  revert hyear
  decide

end Record

end Sidecar
