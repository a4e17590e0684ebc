import Sidecar.Proofs.Bytes
import Sidecar.Proofs.Expansion

/-! Patterns under a root. The root's own components are escaped, so the walk from the root
directory goes straight to the root, and what is found there is what the pattern's components find.
-/

namespace Sidecar

namespace Glob

/-- The component that stands for a name of the root's path. -/
def rootComponent (name : String) : Pattern :=
  ⟨String.ofList (escape name.toList), name.toList.map Token.only⟩

theorem isComponent_rootComponent {name : String} (h : '/' ∉ name.toList) :
    (rootComponent name).IsComponent := by
  refine ⟨?_, ?_⟩
  · rw [Pattern.parse, rootComponent, String.toList_ofList, tokens_escape true h]
    rfl
  · rw [rootComponent, String.toList_ofList, mem_escape (by decide)]
    exact h

theorem matches_rootComponent_iff {name text : String} (h : '/' ∉ name.toList) :
    (rootComponent name).matches text = true ↔ text = name := by
  rw [Pattern.matches_iff, Pattern.Matches, rootComponent, matches_only_iff h, String.toList_inj]

theorem literal?_rootComponent {name literal : String} (h : '/' ∉ name.toList)
    (hl : (rootComponent name).literal? = some literal) : literal = name := by
  rw [← matches_rootComponent_iff h, Pattern.matches_iff]
  exact (Pattern.matches_of_literal? hl).mpr rfl

theorem not_isRecursive_rootComponent (name : String) :
    (rootComponent name).isRecursive = false := by
  rw [Pattern.isRecursive, rootComponent, List.any_eq_false]
  intro tok htok
  obtain ⟨c, _, rfl⟩ := List.mem_map.mp htok
  unfold Token.only
  split <;> simp

theorem isThere_of_isDirectory {t : FileTree} {p : Path} (h : t.isDirectory p = true) :
    isThere t p = true := by
  unfold FileTree.isDirectory at h
  unfold isThere
  split at h
  next e he =>
    rw [he]
    rfl
  next => contradiction

section

variable {t : FileTree} {name : String} {loc : Location}

/-- From the directory above, a name leads to the directory that it is the name of. -/
theorem leadsTo_directory (hdir : t.get? (name :: loc) = some .directory)
    (hlen : (FileTree.pathOf (name :: loc)).utf8ByteSize < FileTree.maxPathBytes) :
    (Place.at t ⟨FileTree.pathOf loc⟩).leadsTo t name = true := by
  have ⟨_, hhere, hup, _⟩ := FileTree.isEntryName_of_get? hdir
  have hnext := FileTree.isDirectory_of_get? (FileTree.spells_pathOf_of_get? hdir) hdir hlen
  rw [Place.leadsTo, if_neg (by simp [hhere, hup]), Place.path_at,
    FileTree.child_pathOf_of_get? (FileTree.get?_parent hdir)]
  exact isThere_of_isDirectory hnext

theorem below_directory (hdir : t.get? (name :: loc) = some .directory)
    (hlen : (FileTree.pathOf (name :: loc)).utf8ByteSize < FileTree.maxPathBytes) :
    Place.below t (.at t ⟨FileTree.pathOf loc⟩) name .directory =
      .at t ⟨FileTree.pathOf (name :: loc)⟩ := by
  have hnext := FileTree.isDirectory_of_get? (FileTree.spells_pathOf_of_get? hdir) hdir hlen
  rw [Place.below, Place.path_at, FileTree.child_pathOf_of_get? (FileTree.get?_parent hdir),
    Place.at, hnext]
  rfl

theorem isDirectory_above (hdir : t.get? (name :: loc) = some .directory)
    (hlen : (FileTree.pathOf (name :: loc)).utf8ByteSize < FileTree.maxPathBytes) :
    (Place.at t ⟨FileTree.pathOf loc⟩).isDirectory = true ∧
      t.list (Place.at t ⟨FileTree.pathOf loc⟩).path = .ok (t.entriesIn loc) := by
  have habove := FileTree.get?_parent hdir
  have hspells := FileTree.spells_pathOf_of_get? habove
  have hshort := Nat.lt_of_le_of_lt (FileTree.utf8ByteSize_pathOf_le [name] loc) hlen
  exact ⟨FileTree.isDirectory_of_get? hspells habove hshort,
    FileTree.list_of_directory hspells habove hshort⟩

theorem expand_rootComponent {onlyDirectories : Bool}
    (hdir : t.get? (name :: loc) = some .directory)
    (hlen : (FileTree.pathOf (name :: loc)).utf8ByteSize < FileTree.maxPathBytes)
    (rest : List Pattern) :
    expand t onlyDirectories (.at t ⟨FileTree.pathOf loc⟩) (rootComponent name :: rest) =
      expand t onlyDirectories (.at t ⟨FileTree.pathOf (name :: loc)⟩) rest := by
  obtain ⟨_, hhere, hup, hslash, _⟩ := FileTree.isEntryName_of_get? hdir
  cases hlit : (rootComponent name).literal? with
  | some literal =>
    obtain rfl := literal?_rootComponent hslash hlit
    have hchild := FileTree.child_pathOf_of_get? (FileTree.get?_parent hdir) literal
    rw [expand_literal hlit, if_pos (leadsTo_directory hdir hlen)]
    exact congrArg (fun p => expand t onlyDirectories (.at t p) rest) hchild
  | none =>
    have hdots (dots : String) (h : dots ≠ name) : expandDots t onlyDirectories
        (.at t ⟨FileTree.pathOf loc⟩) (rootComponent name) rest dots = [] := by
      have : (rootComponent name).matches dots = false := by
        rw [← Bool.not_eq_true, matches_rootComponent_iff hslash]
        exact h
      rw [expandDots, this, Bool.and_false]
      rfl
    have hinto (n : String) (e : Entry) (h : n ≠ name) : expandInto t onlyDirectories
        (.at t ⟨FileTree.pathOf loc⟩) (rootComponent name) rest n e = [] := by
      unfold expandInto
      rw [not_isRecursive_rootComponent, if_neg (by simp), if_neg]
      rw [matches_rootComponent_iff hslash]
      exact h
    obtain ⟨hat, hl⟩ := isDirectory_above hdir hlen
    rw [expand_wildcard hlit hat hl, hdots ".." (Ne.symm hup), hdots "." (Ne.symm hhere),
      FileTree.flatMap_entriesIn hdir hinto]
    unfold expandInto
    rw [not_isRecursive_rootComponent, if_neg (by simp),
      if_pos ((matches_rootComponent_iff hslash).mpr rfl), below_directory hdir hlen]
    rfl

end

/-- A walk goes through the names of the root one after another. -/
theorem through_root {t : FileTree} {root : Path} {above : Location}
    {P : Place → List Pattern → Prop} (hroot : IsRoot t root above)
    (hstep : ∀ name loc rest, t.get? (name :: loc) = some .directory →
      (FileTree.pathOf (name :: loc)).utf8ByteSize < FileTree.maxPathBytes →
      P (.at t ⟨FileTree.pathOf (name :: loc)⟩) rest →
      P (.at t ⟨FileTree.pathOf loc⟩) (rootComponent name :: rest))
    {rest : List Pattern} (h : P (.at t root) rest) :
    P (.at t ⟨"/"⟩) (above.reverse.map rootComponent ++ rest) := by
  have hdir := hroot.isDirectory
  have hlen := hroot.short
  rw [hroot.eq_pathOf] at h hlen
  clear hroot
  induction above generalizing rest with
  | nil => exact h
  | cons name loc ih =>
    have hshort := Nat.lt_of_le_of_lt (FileTree.utf8ByteSize_pathOf_le [name] loc) hlen
    rw [List.reverse_cons, List.map_append, List.append_assoc]
    exact ih (hstep name loc rest hdir hlen h) (FileTree.get?_parent hdir) hshort

theorem expand_root {t : FileTree} {root : Path} {above : Location} (hroot : IsRoot t root above)
    (onlyDirectories : Bool) (rest : List Pattern) :
    expand t onlyDirectories (.at t ⟨"/"⟩) (above.reverse.map rootComponent ++ rest) =
      expand t onlyDirectories (.at t root) rest :=
  through_root (P := fun place comps => expand t onlyDirectories place comps =
    expand t onlyDirectories (.at t root) rest) hroot
    (fun _ _ rest hdir hlen h => (expand_rootComponent hdir hlen rest).trans h) rfl

/-! The components of a pattern under a root. -/

/-- Without the empty text behind a slash at the end. -/
def withoutFinalSlash (names : List String) : List String :=
  if names.getLast? = some "" then names.dropLast else names

/-- A pattern without the `./` at its start. -/
def relative (pattern : String) : String :=
  String.ofList (underRoot.withoutHere pattern.toList)

/-- A pattern that does not open with `./` is taken as it is. -/
theorem relative_eq {p : String} (h : "." ∉ Text.piecesOf '/' p) : relative p = p := by
  have hkept : underRoot.withoutHere p.toList = p.toList := by
    unfold underRoot.withoutHere
    split
    next cs hp =>
      refine absurd ?_ h
      rw [Text.piecesOf, hp]
      exact List.mem_map.mpr ⟨['.'], List.mem_cons_self, rfl⟩
    next => rfl
  rw [relative, hkept, String.ofList_toList]

/-- The segments that are left out at the start are lone dots. -/
theorem pieces_withoutHere (cs : List Char) : ∃ count, Text.pieces '/' cs =
    List.replicate count ['.'] ++ Text.pieces '/' (underRoot.withoutHere cs) := by
  fun_induction underRoot.withoutHere cs with
  | case1 cs ih =>
    have ⟨count, hcount⟩ := ih
    have hdot : Text.pieces '/' ['.'] = [['.']] := Text.pieces_eq_singleton (by decide)
    refine ⟨count + 1, ?_⟩
    rw [show '.' :: '/' :: cs = ['.'] ++ '/' :: cs from rfl, Text.pieces_append_cons, hdot, hcount]
    rfl
  | case2 cs => exact ⟨0, rfl⟩

theorem eq_here_or_mem_relative {name p : String} (h : name ∈ Text.piecesOf '/' p) :
    name = "." ∨ name ∈ Text.piecesOf '/' (relative p) := by
  have ⟨cs, hcs, hname⟩ := List.mem_map.mp h
  have ⟨count, hcount⟩ := pieces_withoutHere p.toList
  rw [hcount] at hcs
  cases List.mem_append.mp hcs with
  | inl hdot =>
    rw [List.eq_of_mem_replicate hdot] at hname
    exact .inl hname.symm
  | inr hmem =>
    refine .inr (List.mem_map.mpr ⟨cs, ?_, hname⟩)
    rwa [relative, String.toList_ofList]

theorem escape_append (a b : List Char) : escape (a ++ b) = escape a ++ escape b :=
  List.flatMap_append

theorem escape_flatMap_slash (names : List (List Char)) :
    escape (names.flatMap ('/' :: ·)) = (names.map escape).flatMap ('/' :: ·) := by
  induction names with
  | nil => rfl
  | cons n names ih =>
    rw [List.flatMap_cons, escape_append, ih, List.map_cons, List.flatMap_cons]
    rfl

theorem flatMap_slash_append {names ps : List (List Char)} (h : ps ≠ []) :
    names.flatMap ('/' :: ·) ++ '/' :: Text.joined ['/'] ps =
      '/' :: Text.joined ['/'] (names ++ ps) := by
  induction names with
  | nil => rfl
  | cons n names ih =>
    have hne : names ++ ps ≠ [] := by simp [h]
    have hjoined := Text.joined_cons_of_ne_nil ['/'] n hne
    rw [List.flatMap_cons, List.append_assoc, ih, List.cons_append, List.cons_append, hjoined,
      List.append_assoc, List.singleton_append]

theorem toList_underRoot {root : Path} {above : Location} (hroot : root = ⟨FileTree.pathOf above⟩)
    (habove : ∀ n ∈ above, n ≠ "" ∧ '/' ∉ n.toList) (pattern : String) :
    (underRoot root pattern).toList = '/' :: Text.joined ['/']
      (above.reverse.map (fun n => escape n.toList) ++
        Text.pieces '/' (relative pattern).toList) := by
  have hrootText : (root.text.toList.reverse.dropWhile (· == '/')).reverse =
      (above.reverse.map String.toList).flatMap ('/' :: ·) := by
    cases above with
    | nil => rw [hroot]; rfl
    | cons n more =>
      have ⟨hne, hslash⟩ := habove n List.mem_cons_self
      have hlast : root.text.toList.reverse.head? ≠ some '/' := by
        rw [List.head?_reverse, hroot, FileTree.getLast?_pathOf hne]
        exact fun h => hslash (List.mem_of_getLast? h)
      have hkept : root.text.toList.reverse.dropWhile (· == '/') = root.text.toList.reverse := by
        cases hrev : root.text.toList.reverse with
        | nil => rfl
        | cons c cs =>
          rw [hrev, List.head?_cons] at hlast
          exact List.dropWhile_cons_of_neg fun h => hlast (congrArg some (beq_iff_eq.mp h))
      rw [hkept, List.reverse_reverse, hroot, FileTree.toList_pathOf (List.cons_ne_nil n more),
        List.flatMap_map]
  have hjoined := Text.joined_pieces '/' (relative pattern).toList
  rw [underRoot, BytePath.shown_inBytes, hrootText, escape_flatMap_slash, String.toList_append,
    String.toList_append, String.toList_ofList, List.map_map,
    ← flatMap_slash_append (Text.pieces_ne_nil _ _), hjoined, List.append_assoc]
  rfl

/-- The components of a pattern under a root, each as it is spelled. -/
def textsUnderRoot (above : Location) (pattern : String) : List String :=
  above.reverse.map (fun n => (rootComponent n).text) ++ Text.piecesOf '/' (relative pattern)

theorem textsUnderRoot_ne_nil (above : Location) (pattern : String) :
    textsUnderRoot above pattern ≠ [] := by
  simp [textsUnderRoot, Text.piecesOf_ne_nil]

theorem underRoot_eq {root : Path} {above : Location} (hroot : root = ⟨FileTree.pathOf above⟩)
    (habove : ∀ n ∈ above, n ≠ "" ∧ '/' ∉ n.toList) (pattern : String) :
    underRoot root pattern = "/".intercalate ("" :: textsUnderRoot above pattern) := by
  have hpieces : (Text.piecesOf '/' (relative pattern)).map String.toList =
      Text.pieces '/' (relative pattern).toList := by
    rw [Text.piecesOf, List.map_map]
    simp
  have hnames : (above.reverse.map fun n => (rootComponent n).text).map String.toList =
      above.reverse.map fun n => escape n.toList := by
    simp [rootComponent]
  rw [← String.toList_inj, toList_underRoot hroot habove,
    Text.toList_intercalate_root (textsUnderRoot_ne_nil _ _), Text.toList_intercalate_slash,
    textsUnderRoot, List.map_append, hnames, hpieces]

theorem withoutFinalSlash_append (before : List String) {names : List String} (h : names ≠ []) :
    withoutFinalSlash (before ++ names) = before ++ withoutFinalSlash names := by
  have hlast : (before ++ names).getLast? = names.getLast? := by
    rw [List.getLast?_append, Option.or_of_isSome (by simpa using h)]
  rw [withoutFinalSlash, withoutFinalSlash, hlast, List.dropLast_append_of_ne_nil h]
  split
  · rfl
  · rfl

theorem mem_of_mem_withoutFinalSlash {name : String} {names : List String}
    (h : name ∈ withoutFinalSlash names) : name ∈ names := by
  unfold withoutFinalSlash at h
  split at h
  · exact List.dropLast_subset _ h
  · exact h

theorem eq_or_mem_withoutFinalSlash {name : String} {names : List String} (h : name ∈ names) :
    name = "" ∨ name ∈ withoutFinalSlash names := by
  unfold withoutFinalSlash
  split
  next hlast =>
    obtain ⟨before, rfl⟩ := List.getLast?_eq_some_iff.mp hlast
    rw [List.dropLast_concat]
    cases List.mem_append.mp h with
    | inl h => exact .inr h
    | inr h => exact .inl (List.mem_singleton.mp h)
  next => exact .inr h

theorem withoutFinalSlash_eq {names : List String} (h : "" ∉ wholeComponents names) :
    withoutFinalSlash names = wholeComponents names := by
  fun_induction wholeComponents names with
  | case1 => rfl
  | case2 c =>
    rw [withoutFinalSlash, if_neg]
    intro hlast
    exact h (List.mem_of_getLast? hlast)
  | case3 c d rest hboth =>
    obtain ⟨rfl, rfl, rfl⟩ := hboth
    rfl
  | case4 c d rest _ ih =>
    rw [← ih fun hmem => h (List.mem_cons_of_mem _ hmem)]
    exact withoutFinalSlash_append [c] (List.cons_ne_nil d rest)

/-- A text that is spelled from the root directory ends in a slash when its last segment is void. -/
theorem getLast?_intercalate_root {names : List String} (hnames : ∀ n ∈ names, '/' ∉ n.toList)
    (hne : names ≠ []) : ("/".intercalate ("" :: names)).toList.getLast? = some '/' ↔
      names.getLast? = some "" := by
  obtain ⟨before, last, rfl⟩ : ∃ before last, names = before ++ [last] :=
    ⟨_, _, (List.dropLast_concat_getLast hne).symm⟩
  have htext : ("/".intercalate ("" :: (before ++ [last]))).toList =
      (before.map String.toList).flatMap ('/' :: ·) ++ '/' :: last.toList := by
    have hjoined : (before.map String.toList).flatMap ('/' :: ·) ++ '/' :: last.toList =
        '/' :: Text.joined ['/'] (before.map String.toList ++ [last.toList]) :=
      flatMap_slash_append (List.cons_ne_nil last.toList [])
    rw [Text.toList_intercalate_root hne, Text.toList_intercalate_slash, List.map_append]
    exact hjoined.symm
  rw [htext, List.getLast?_concat, List.getLast?_append, Option.or_of_isSome (by simp)]
  cases hlast : last.toList with
  | nil => simp [String.toList_eq_nil_iff.mp hlast]
  | cons c cs =>
    have hslash : '/' ∉ c :: cs := hlast ▸ hnames last (by simp)
    have hvoid : last ≠ "" := by
      intro h
      rw [h] at hlast
      contradiction
    refine ⟨fun h => absurd (List.mem_of_getLast? ?_) hslash, fun h => ?_⟩
    · rwa [List.getLast?_cons_cons] at h
    · exact absurd (Option.some.inj h) hvoid

theorem isComponent_empty : (⟨"", []⟩ : Pattern).IsComponent := by
  refine ⟨Pattern.parse_eq_ok_iff.mpr ⟨rfl, ?_⟩, by simp⟩
  rw [show "".toList = [] from rfl, tokens]

theorem isComponent_here : (⟨".", [.literal '.']⟩ : Pattern).IsComponent := by
  refine ⟨Pattern.parse_eq_ok_iff.mpr ⟨rfl, ?_⟩, by decide⟩
  cbv

theorem parse_route {texts : List String} (htexts : ∀ n ∈ texts, '/' ∉ n.toList)
    (hne : texts ≠ []) {r : Route} :
    Route.parse ("/".intercalate ("" :: texts)) = .ok r ↔ ∃ comps : List Pattern,
      comps.map Pattern.text = withoutFinalSlash texts ∧ (∀ c ∈ comps, c.IsComponent) ∧
      r = ⟨collapse comps, texts.getLast? == some ""⟩ := by
  have htail : Text.piecesOf '/' (String.ofList ("/".intercalate ("" :: texts)).toList.tail) =
      texts := by
    rw [Text.toList_intercalate_root hne, List.tail_cons, String.ofList_toList,
      Text.piecesOf_intercalate htexts hne]
  have hends : (("/".intercalate ("" :: texts)).toList.getLast? == some '/') =
      (texts.getLast? == some "") := by
    rw [Bool.eq_iff_iff, beq_iff_eq, beq_iff_eq, getLast?_intercalate_root htexts hne]
  have hkept : ∀ n ∈ withoutFinalSlash texts, '/' ∉ n.toList :=
    fun n hn => htexts n (mem_of_mem_withoutFinalSlash hn)
  rw [Route.parse, htail, hends]
  refine ⟨fun h => ?_, ?_⟩
  · cases hfull : Pattern.parse ("/".intercalate ("" :: texts)) with
    | error => simp [hfull, bind, Except.bind] at h
    | ok full =>
      cases hmap : (withoutFinalSlash texts).mapM Pattern.parse with
      | error =>
        rw [withoutFinalSlash] at hmap
        simp [hfull, hmap, bind, Except.bind] at h
      | ok comps =>
        have ⟨htext, hcomps⟩ := (mapM_parse_eq_ok_iff hkept).mp hmap
        rw [withoutFinalSlash] at hmap
        simp only [hfull, hmap, bind, Except.bind, Except.ok.injEq] at h
        exact ⟨comps, htext, hcomps, h.symm⟩
  · intro ⟨comps, htext, hcomps, hr⟩
    have hmap := (mapM_parse_eq_ok_iff hkept).mpr ⟨htext, hcomps⟩
    have ⟨full, hfull⟩ : ∃ full, Pattern.parse ("/".intercalate ("" :: texts)) = .ok full := by
      apply exists_parse
      have hall : ∀ n ∈ "" :: texts, '/' ∉ n.toList := by simpa using htexts
      rw [Text.piecesOf_intercalate hall (List.cons_ne_nil _ _)]
      intro name hname
      have hname : name = "" ∨ name ∈ withoutFinalSlash texts :=
        (List.mem_cons.mp hname).elim .inl eq_or_mem_withoutFinalSlash
      cases hname with
      | inl h => exact ⟨⟨"", []⟩, h.symm, isComponent_empty⟩
      | inr h =>
        rw [← htext] at h
        have ⟨c, hc, hname⟩ := List.mem_map.mp h
        exact ⟨c, hname, hcomps c hc⟩
    rw [withoutFinalSlash] at hmap
    simp only [hfull, hmap, bind, Except.bind, hr]

/-- A route under a root goes through the root's names and then as the pattern says. -/
theorem parse_underRoot {t : FileTree} {root : Path} {above : Location}
    (hroot : IsRoot t root above) {pattern : String} {r : Route} :
    Route.parse (underRoot root pattern) = .ok r ↔ ∃ comps : List Pattern,
      comps.map Pattern.text = withoutFinalSlash (Text.piecesOf '/' (relative pattern)) ∧
      (∀ c ∈ comps, c.IsComponent) ∧
      r = ⟨above.reverse.map rootComponent ++ collapse comps,
        (Text.piecesOf '/' (relative pattern)).getLast? == some ""⟩ := by
  have habove : ∀ n ∈ above, n ≠ "" ∧ '/' ∉ n.toList := fun n hn =>
    have hname := FileTree.isEntryName_of_mem hroot.isDirectory hn
    ⟨hname.1, hname.2.2.2.1⟩
  have hpieces := Text.piecesOf_ne_nil '/' (relative pattern)
  have hrootComps : ∀ c ∈ above.reverse.map rootComponent, c.IsComponent := by
    intro c hc
    have ⟨n, hn, hname⟩ := List.mem_map.mp hc
    exact hname ▸ isComponent_rootComponent (habove n (List.mem_reverse.mp hn)).2
  have hrootTexts : (above.reverse.map rootComponent).map Pattern.text =
      above.reverse.map fun n => (rootComponent n).text := by
    rw [List.map_map]
    rfl
  have htexts : ∀ n ∈ textsUnderRoot above pattern, '/' ∉ n.toList := by
    intro n hn
    cases List.mem_append.mp hn with
    | inl h =>
      rw [← hrootTexts] at h
      have ⟨c, hc, hname⟩ := List.mem_map.mp h
      exact hname ▸ (hrootComps c hc).slashFree
    | inr h => exact Text.not_mem_toList_of_mem_piecesOf h
  have hlast : (textsUnderRoot above pattern).getLast? =
      (Text.piecesOf '/' (relative pattern)).getLast? := by
    rw [textsUnderRoot, List.getLast?_append, Option.or_of_isSome (by simpa using hpieces)]
  have hcollapse (comps : List Pattern) : collapse (above.reverse.map rootComponent ++ comps) =
      above.reverse.map rootComponent ++ collapse comps :=
    collapse_append (fun c hc =>
      have ⟨n, _, hname⟩ := List.mem_map.mp hc
      hname ▸ not_isRecursive_rootComponent n) comps
  rw [underRoot_eq hroot.eq_pathOf habove, parse_route htexts (textsUnderRoot_ne_nil _ _), hlast,
    textsUnderRoot, withoutFinalSlash_append _ hpieces]
  refine ⟨fun ⟨comps, htext, hcomps, hr⟩ => ?_, fun ⟨comps, htext, hcomps, hr⟩ => ?_⟩
  · obtain ⟨before, after, rfl, hbefore, hafter⟩ := List.map_eq_append_iff.mp htext
    have heq : before = above.reverse.map rootComponent := by
      apply eq_of_texts (fun c hc => hcomps c (List.mem_append_left _ hc)) hrootComps
      rw [hbefore, hrootTexts]
    rw [heq, hcollapse] at hr
    exact ⟨after, hafter, fun c hc => hcomps c (List.mem_append_right _ hc), hr⟩
  · refine ⟨above.reverse.map rootComponent ++ comps, ?_, ?_, by rw [hr, hcollapse]⟩
    · rw [List.map_append, hrootTexts, htext]
    · intro c hc
      exact (List.mem_append.mp hc).elim (hrootComps c) (hcomps c)

end Glob

end Sidecar
