import Sidecar.Selection

/-! What an absolute path spells. Void segments aside, a path without `..` is the list of names from
the root directory down, that is a location, and the operations on paths act on that list. -/

namespace Sidecar

namespace Text

theorem pieces_eq_splitOn (sep : Char) (cs : List Char) : pieces sep cs = cs.splitOn sep := by
  induction cs with
  | nil => rfl
  | cons c cs ih =>
    rw [List.splitOn_cons_eq_if_modifyHead, ← ih]
    simp only [pieces, beq_iff_eq]
    split
    next => rfl
    next =>
      cases hp : pieces sep cs with
      | nil => exact absurd hp (pieces_ne_nil sep cs)
      | cons => rfl

theorem joined_eq_intercalate (sep : List Char) (ps : List (List Char)) :
    joined sep ps = sep.intercalate ps := by
  induction ps with
  | nil => rfl
  | cons p ps ih =>
    cases ps with
    | nil => simp [joined]
    | cons q qs => rw [List.intercalate_cons_cons, ← ih]; rfl

theorem pieces_append_cons (sep : Char) (a b : List Char) :
    pieces sep (a ++ sep :: b) = pieces sep a ++ pieces sep b := by
  simp only [pieces_eq_splitOn, List.splitOn_append_cons_self]

theorem pieces_eq_singleton {sep : Char} {cs : List Char} (h : sep ∉ cs) :
    pieces sep cs = [cs] := by
  rw [pieces_eq_splitOn, List.splitOn_eq_singleton h]

theorem pieces_joined {sep : Char} {ps : List (List Char)} (h : ∀ p ∈ ps, sep ∉ p)
    (hne : ps ≠ []) : pieces sep (joined [sep] ps) = ps := by
  rw [pieces_eq_splitOn, joined_eq_intercalate, List.splitOn_intercalate sep h hne]

theorem joined_eq_nil_iff {sep : List Char} {ps : List (List Char)} (h : [] ∉ ps) :
    joined sep ps = [] ↔ ps = [] := by
  match ps with
  | [] => simp [joined]
  | [p] =>
    have hp : p ≠ [] := fun hnil => h (hnil ▸ List.mem_cons_self)
    simpa [joined] using hp
  | p :: q :: more =>
    have hp : p ≠ [] := fun hnil => h (hnil ▸ List.mem_cons_self)
    rw [joined_cons_of_ne_nil sep p (List.cons_ne_nil q more)]
    simp [hp]

/-- Pieces that are not empty can be told from the text that they make. -/
theorem joined_inj {sep : Char} {ps qs : List (List Char)} (hps : ∀ p ∈ ps, p ≠ [] ∧ sep ∉ p)
    (hqs : ∀ q ∈ qs, q ≠ [] ∧ sep ∉ q) (h : joined [sep] ps = joined [sep] qs) : ps = qs := by
  have hps' : joined [sep] ps = [] ↔ ps = [] := joined_eq_nil_iff fun hmem => (hps [] hmem).1 rfl
  have hqs' : joined [sep] qs = [] ↔ qs = [] := joined_eq_nil_iff fun hmem => (hqs [] hmem).1 rfl
  have hnil : ps = [] ↔ qs = [] := by rw [← hps', h, hqs']
  by_cases hne : ps = []
  · rw [hne, hnil.mp hne]
  · rw [← pieces_joined (fun p hp => (hps p hp).2) hne, h,
      pieces_joined (fun q hq => (hqs q hq).2) (mt hnil.mpr hne)]

theorem ofList_comp_toList : String.ofList ∘ String.toList = id :=
  funext fun _ => String.ofList_toList

theorem toList_intercalate_slash (names : List String) :
    ("/".intercalate names).toList = joined ['/'] (names.map String.toList) := by
  rw [String.toList_intercalate, joined_eq_intercalate]
  rfl

theorem toList_intercalate_root {names : List String} (h : names ≠ []) :
    ("/".intercalate ("" :: names)).toList = '/' :: ("/".intercalate names).toList := by
  rw [String.intercalate_cons_of_ne_nil h, String.empty_append, String.toList_append]
  rfl

theorem joinedBy_eq_intercalate (names : List String) :
    joinedBy "/" names = "/".intercalate names := by
  rw [← String.toList_inj, toList_intercalate_slash, joinedBy, String.toList_ofList]
  rfl

theorem piecesOf_intercalate {names : List String} (h : ∀ n ∈ names, '/' ∉ n.toList)
    (hne : names ≠ []) : piecesOf '/' ("/".intercalate names) = names := by
  have hp : ∀ p ∈ names.map String.toList, '/' ∉ p := by
    intro p hp
    obtain ⟨n, hn, rfl⟩ := List.mem_map.mp hp
    exact h n hn
  rw [piecesOf, toList_intercalate_slash, pieces_joined hp (by simpa using hne), List.map_map,
    ofList_comp_toList, List.map_id]

/-- What is put behind a text of names stands behind the last name. -/
theorem intercalate_concat_append (before : List String) (last suffix : String) :
    "/".intercalate (before ++ [last ++ suffix]) =
      "/".intercalate (before ++ [last]) ++ suffix := by
  cases before with
  | nil => simp
  | cons n more =>
    rw [String.intercalate_append_of_ne_nil (by simp) (by simp),
      String.intercalate_append_of_ne_nil (by simp) (by simp), String.intercalate_singleton,
      String.intercalate_singleton, String.append_assoc, String.append_assoc, String.append_assoc]

/-- Names can be told from the text that they make. -/
theorem intercalate_inj {xs ys : List String} (hxs : ∀ n ∈ xs, n ≠ "" ∧ '/' ∉ n.toList)
    (hys : ∀ n ∈ ys, n ≠ "" ∧ '/' ∉ n.toList) (h : "/".intercalate xs = "/".intercalate ys) :
    xs = ys := by
  have hpieces {names : List String} (hnames : ∀ n ∈ names, n ≠ "" ∧ '/' ∉ n.toList) :
      ∀ p ∈ names.map String.toList, p ≠ [] ∧ '/' ∉ p := by
    intro p hp
    obtain ⟨n, hn, rfl⟩ := List.mem_map.mp hp
    simpa using hnames n hn
  rw [← String.toList_inj, toList_intercalate_slash, toList_intercalate_slash] at h
  exact (List.map_inj_right fun _ _ => String.toList_inj.mp).mp
    (joined_inj (hpieces hxs) (hpieces hys) h)

/-- A separator at an end of a text cuts off an empty piece. -/
theorem empty_mem_piecesOf {sep : Char} {s : String} {before after : List Char}
    (hs : s.toList = before ++ sep :: after) (hend : before = [] ∨ after = []) :
    "" ∈ piecesOf sep s := by
  rw [piecesOf, hs, pieces_append_cons, List.map_append, List.mem_append]
  cases hend with
  | inl hbefore => exact .inl (by simp [hbefore, pieces])
  | inr hafter => exact .inr (by simp [hafter, pieces])

theorem not_mem_toList_of_mem_piecesOf {sep : Char} {s piece : String}
    (h : piece ∈ piecesOf sep s) : sep ∉ piece.toList := by
  obtain ⟨cs, hcs, rfl⟩ := List.mem_map.mp h
  rw [String.toList_ofList]
  exact not_mem_of_mem_pieces hcs

theorem piecesOf_ne_nil (sep : Char) (s : String) : piecesOf sep s ≠ [] := by
  simp [piecesOf, pieces_ne_nil]

theorem mem_joined {c : Char} {sep : List Char} {ps : List (List Char)} (h : c ∈ joined sep ps) :
    c ∈ sep ∨ ∃ p ∈ ps, c ∈ p := by
  induction ps with
  | nil => simp [joined] at h
  | cons p ps ih =>
    cases ps with
    | nil => exact .inr ⟨p, by simp, by simpa [joined] using h⟩
    | cons q qs =>
      rw [joined_cons_of_ne_nil sep p (by simp), List.mem_append, List.mem_append] at h
      rcases h with (h | h) | h
      · exact .inr ⟨p, by simp, h⟩
      · exact .inl h
      · rcases ih h with hsep | ⟨r, hr, hc⟩
        · exact .inl hsep
        · exact .inr ⟨r, List.mem_cons_of_mem _ hr, hc⟩

theorem mem_joined_of_mem {c : Char} {sep p : List Char} {ps : List (List Char)} (hp : p ∈ ps)
    (hc : c ∈ p) : c ∈ joined sep ps := by
  induction ps with
  | nil => contradiction
  | cons q qs ih =>
    cases qs with
    | nil => rwa [joined, ← List.mem_singleton.mp hp]
    | cons r rs =>
      rw [joined_cons_of_ne_nil sep q (by simp), List.mem_append, List.mem_append]
      cases List.mem_cons.mp hp with
      | inl heq => exact .inl (.inl (heq ▸ hc))
      | inr hp => exact .inr (ih hp)

theorem mem_toList_of_mem_piece {sep c : Char} {s piece : String} (hp : piece ∈ piecesOf sep s)
    (hc : c ∈ piece.toList) : c ∈ s.toList := by
  obtain ⟨chars, hchars, rfl⟩ := List.mem_map.mp hp
  rw [String.toList_ofList] at hc
  rw [← joined_pieces sep s.toList]
  exact mem_joined_of_mem hchars hc

/-- A character of a text other than the separator stands in one of its pieces. -/
theorem exists_piece_of_mem {sep c : Char} {s : String} (h : c ∈ s.toList) (hc : c ≠ sep) :
    ∃ piece ∈ piecesOf sep s, c ∈ piece.toList := by
  rw [← joined_pieces sep s.toList] at h
  rcases mem_joined h with hsep | ⟨p, hp, hcp⟩
  · exact absurd (List.mem_singleton.mp hsep) hc
  · exact ⟨String.ofList p, List.mem_map_of_mem hp, by rwa [String.toList_ofList]⟩

end Text

namespace Path

/-- The segments that name something. -/
def plain (segments : List String) : List String :=
  segments.filter fun s => s ≠ "" ∧ s ≠ "."

theorem plain_cons_void {s : String} (rest : List String) (h : s = "" ∨ s = ".") :
    plain (s :: rest) = plain rest := by
  rcases h with rfl | rfl <;> rfl

theorem plain_cons_name {s : String} (rest : List String) (h : ¬(s = "" ∨ s = ".")) :
    plain (s :: rest) = s :: plain rest := by
  rw [not_or] at h
  simp [plain, h]

theorem plain_append (a b : List String) : plain (a ++ b) = plain a ++ plain b :=
  List.filter_append a b

theorem plain_eq_nil_iff {segments : List String} :
    plain segments = [] ↔ ∀ v ∈ segments, v = "" ∨ v = "." := by
  rw [plain, List.filter_eq_nil_iff]
  refine forall_congr' fun v => forall_congr' fun _ => ?_
  rw [decide_eq_true_eq, ← not_or, Decidable.not_not]

theorem exists_of_plain_eq_cons {segments names : List String} {s : String}
    (h : plain segments = s :: names) : ∃ voids rest, segments = voids ++ s :: rest ∧
      (∀ v ∈ voids, v = "" ∨ v = ".") ∧ plain rest = names := by
  obtain ⟨voids, rest, hsegments, hvoid, _, hrest⟩ := List.filter_eq_cons_iff.mp h
  refine ⟨voids, rest, hsegments, fun v hv => ?_, hrest⟩
  have := hvoid v hv
  rwa [decide_eq_true_eq, ← not_or, Decidable.not_not] at this

theorem filterMap_ofInner?_eq_iff {segments names : List String} :
    segments.filterMap Part.ofInner? = names.map Part.name ↔
      ".." ∉ segments ∧ plain segments = names := by
  induction segments generalizing names with
  | nil => simp [plain, eq_comm]
  | cons s rest ih =>
    by_cases hvoid : s = "" ∨ s = "."
    · have hup : s ≠ ".." := by rcases hvoid with rfl | rfl <;> decide
      rw [List.filterMap_cons_none (by simp [Part.ofInner?, hvoid]), ih, plain_cons_void rest hvoid]
      simp [hup.symm]
    · rw [plain_cons_name rest hvoid]
      by_cases hup : s = ".."
      · subst hup
        rw [List.filterMap_cons_some (b := .parent) (by decide)]
        cases names <;> simp
      · rw [List.filterMap_cons_some (b := .name s) (by simp [Part.ofInner?, hvoid, hup])]
        cases names with
        | nil => simp
        | cons n ns =>
          have := @ih ns
          simp only [List.map_cons, List.cons.injEq, Part.name.injEq, this, List.mem_cons, not_or]
          exact ⟨fun ⟨hs, hr, hn⟩ => ⟨⟨Ne.symm hup, hr⟩, hs, hn⟩,
            fun ⟨⟨_, hr⟩, hs, hn⟩ => ⟨hs, hr, hn⟩⟩

theorem parts_eq {p : Path} (h : p.text ≠ "") {first : String} {rest : List String}
    (hs : p.segments = first :: rest) :
    p.parts = .ofFirst first :: rest.filterMap Part.ofInner? := by
  rw [parts, if_neg h, hs]

theorem exists_segments (p : Path) : ∃ first rest, p.segments = first :: rest :=
  List.exists_cons_of_ne_nil (Text.piecesOf_ne_nil '/' p.text)

theorem parts_ne_nil {p : Path} (h : p.text ≠ "") : p.parts ≠ [] := by
  have ⟨first, rest, hs⟩ := p.exists_segments
  rw [parts_eq h hs]
  exact List.cons_ne_nil _ _

theorem segments_of_isAbsolute {p : Path} (h : p.isAbsolute = true) :
    ∃ rest, rest ≠ [] ∧ p.segments = "" :: rest := by
  rw [isAbsolute, beq_iff_eq] at h
  have ⟨cs, hcs⟩ := List.head?_eq_some_iff.mp h
  refine ⟨(Text.pieces '/' cs).map String.ofList, by simp [Text.pieces_ne_nil], ?_⟩
  rw [segments, Text.piecesOf, hcs]
  rfl

theorem isAbsolute_of_segments {p : Path} {rest : List String} (hne : rest ≠ [])
    (h : p.segments = "" :: rest) : p.isAbsolute = true := by
  have hj := Text.joined_pieces '/' p.text.toList
  rw [segments, Text.piecesOf] at h
  cases hp : Text.pieces '/' p.text.toList with
  | nil => exact absurd hp (Text.pieces_ne_nil _ _)
  | cons piece more =>
    rw [hp, List.map_cons, List.cons.injEq] at h
    have hpiece : piece = [] := by simpa using h.1
    have hmore : more ≠ [] := by
      rintro rfl
      exact hne h.2.symm
    rw [hp, hpiece, Text.joined_cons_of_ne_nil _ _ hmore] at hj
    rw [isAbsolute, ← hj]
    rfl

theorem parts_of_isAbsolute {p : Path} (h : p.isAbsolute = true) :
    p.parts = .root :: p.segments.filterMap Part.ofInner? := by
  have ⟨rest, _, hs⟩ := segments_of_isAbsolute h
  have hne : p.text ≠ "" := by rintro ht; simp [isAbsolute, ht] at h
  rw [parts_eq hne hs, hs]
  rfl

theorem isAbsolute_of_parts {p : Path} {ps : List Part} (h : p.parts = .root :: ps) :
    p.isAbsolute = true := by
  unfold parts at h
  split at h
  · contradiction
  next hne =>
    split at h
    · contradiction
    next first rest hs =>
      have hfirst : first = "" := by
        have := (List.cons.inj h).1
        unfold Part.ofFirst at this
        split at this
        · assumption
        · split at this
          · contradiction
          · split at this <;> contradiction
      subst hfirst
      refine isAbsolute_of_segments ?_ hs
      rintro rfl
      have hj := Text.joinedBy_piecesOf '/' p.text
      rw [show Text.piecesOf '/' p.text = [""] from hs] at hj
      exact hne hj.symm

/-- The path is absolute and leads down by names alone: to `loc`, if no link is on the way. -/
def Spells (p : Path) (loc : Location) : Prop :=
  p.parts = .root :: loc.reverse.map Part.name

theorem spells_iff {p : Path} {loc : Location} : p.Spells loc ↔
    p.isAbsolute = true ∧ ".." ∉ p.segments ∧ plain p.segments = loc.reverse := by
  constructor
  · intro h
    have ha := isAbsolute_of_parts h
    rw [Spells, parts_of_isAbsolute ha, List.cons.injEq] at h
    exact ⟨ha, filterMap_ofInner?_eq_iff.mp h.2⟩
  · intro ⟨ha, h⟩
    rw [Spells, parts_of_isAbsolute ha, filterMap_ofInner?_eq_iff.mpr h]

theorem Spells.isAbsolute {p : Path} {loc : Location} (h : p.Spells loc) : p.isAbsolute = true :=
  (spells_iff.mp h).1

theorem Spells.up_not_mem {p : Path} {loc : Location} (h : p.Spells loc) : ".." ∉ p.segments :=
  (spells_iff.mp h).2.1

/-- The place that the segments lead to, from the root directory. -/
theorem Spells.place_eq {p : Path} {loc : Location} (h : p.Spells loc) :
    (plain p.segments).reverse ++ [] = loc := by
  rw [(spells_iff.mp h).2.2, List.reverse_reverse, List.append_nil]

theorem Spells.unique {p : Path} {loc other : Location} (h : p.Spells loc) (h' : p.Spells other) :
    loc = other := by
  have := (spells_iff.mp h).2.2.symm.trans (spells_iff.mp h').2.2
  exact List.reverse_inj.mp this

theorem Spells.name {p : Path} {loc : Location} (h : p.Spells loc) {n : String} (hn : n ∈ loc) :
    n ≠ "" ∧ n ≠ "." ∧ n ≠ ".." ∧ '/' ∉ n.toList := by
  have ⟨_, hup, hplain⟩ := spells_iff.mp h
  rw [← List.mem_reverse, ← hplain, plain, List.mem_filter] at hn
  have ⟨hs, hne⟩ := hn
  simp only [ne_eq, decide_eq_true_eq] at hne
  refine ⟨hne.1, hne.2, ?_, Text.not_mem_toList_of_mem_piecesOf hs⟩
  rintro rfl
  exact hup hs

theorem Spells.text_ne {p : Path} {loc : Location} (h : p.Spells loc) : p.text ≠ "" := by
  intro ht
  simp [Spells, parts, ht] at h

/-- Behind a slash a text brings its own segments. -/
theorem segments_child {p : Path} (hp : p.text ≠ "") (q : String) :
    ∃ first rest, (p.segments = first :: rest ∨ p.segments = first :: (rest ++ [""])) ∧
      (p.child q).segments = first :: (rest ++ Text.piecesOf '/' q) := by
  have hsegs (cs : List Char) : ∃ first rest,
      (Text.pieces '/' cs).map String.ofList = first :: rest := by
    cases hcs : Text.pieces '/' cs with
    | nil => exact absurd hcs (Text.pieces_ne_nil _ _)
    | cons q qs => exact ⟨_, _, rfl⟩
  unfold child
  split
  next hend =>
    rw [or_iff_right hp] at hend
    obtain ⟨init, hinit⟩ := List.getLast?_eq_some_iff.mp hend
    obtain ⟨first, rest, hfirst⟩ := hsegs init
    refine ⟨first, rest, .inr ?_, ?_⟩
    · rw [segments, Text.piecesOf, hinit, Text.pieces_append_cons, List.map_append, hfirst]
      rfl
    · rw [segments, Text.piecesOf, String.toList_append, hinit, List.append_assoc,
        List.singleton_append, Text.pieces_append_cons, List.map_append, hfirst]
      rfl
  next =>
    obtain ⟨first, rest, hfirst⟩ := hsegs p.text.toList
    refine ⟨first, rest, .inl hfirst, ?_⟩
    have htext : (p.text ++ "/" ++ q).toList = p.text.toList ++ '/' :: q.toList := by
      rw [String.toList_append, String.toList_append, List.append_assoc]
      rfl
    rw [segments, Text.piecesOf, htext, Text.pieces_append_cons, List.map_append, hfirst]
    rfl

theorem child_text_ne {p : Path} (name : String) (hp : p.text ≠ "") :
    (p.child name).text ≠ "" := by
  unfold child
  split <;> simp [hp]

theorem parts_child {p : Path} (hp : p.text ≠ "") (q : String) :
    (p.child q).parts = p.parts ++ (Text.piecesOf '/' q).filterMap Part.ofInner? := by
  have ⟨first, rest, hs, hc⟩ := segments_child hp q
  rw [parts_eq (child_text_ne q hp) hc, List.filterMap_append]
  rcases hs with hs | hs
  · rw [parts_eq hp hs, List.cons_append]
  · rw [parts_eq hp hs, List.filterMap_append]
    simp [Part.ofInner?]

theorem parts_child_name {p : Path} {name : String} (hp : p.text ≠ "") (hn : '/' ∉ name.toList) :
    (p.child name).parts = p.parts ++ (Part.ofInner? name).toList := by
  have hname : Text.piecesOf '/' name = [name] := by
    rw [Text.piecesOf, Text.pieces_eq_singleton hn, List.map_singleton, String.ofList_toList]
  rw [parts_child hp, hname]
  cases ho : Part.ofInner? name <;> simp [ho]

theorem Spells.child {p : Path} {loc : Location} (h : p.Spells loc) {name : String}
    (hne : name ≠ "" ∧ name ≠ "." ∧ name ≠ ".." ∧ '/' ∉ name.toList) :
    (p.child name).Spells (name :: loc) := by
  rw [Spells, parts_child_name h.text_ne hne.2.2.2, h]
  simp [Part.ofInner?, hne]

theorem Spells.of_child {p : Path} {loc : Location} {name : String} (hp : p.text ≠ "")
    (hname : name ≠ "" ∧ name ≠ "." ∧ name ≠ ".." ∧ '/' ∉ name.toList)
    (h : (p.child name).Spells loc) : ∃ above, loc = name :: above ∧ p.Spells above := by
  have hpart : Part.ofInner? name = some (.name name) := by simp [Part.ofInner?, hname]
  rw [Spells, parts_child_name hp hname.2.2.2, hpart] at h
  cases loc with
  | nil =>
    have hlen := congrArg List.length h
    have := List.length_pos_iff.mpr (parts_ne_nil hp)
    simp only [Option.toList_some, List.length_append, List.length_cons, List.length_nil,
      List.reverse_nil, List.map_nil] at hlen
    omega
  | cons n above =>
    rw [List.reverse_cons, List.map_append, ← List.cons_append] at h
    obtain ⟨habove, hn⟩ := List.append_inj' h rfl
    simp only [Option.toList_some, List.map_cons, List.map_nil, List.cons.injEq,
      Part.name.injEq, and_true] at hn
    exact ⟨above, by rw [hn], habove⟩

theorem Spells.of_child_void {p : Path} {loc : Location} {name : String} (hp : p.text ≠ "")
    (hvoid : name = "" ∨ name = ".") (h : (p.child name).Spells loc) : p.Spells loc := by
  have hn : '/' ∉ name.toList := by rcases hvoid with rfl | rfl <;> decide
  have hpart : Part.ofInner? name = none := by simp [Part.ofInner?, hvoid]
  rw [Spells, parts_child_name hp hn, hpart] at h
  simpa [Spells] using h

theorem not_spells_child_up {p : Path} {loc : Location} (hp : p.text ≠ "") :
    ¬(p.child "..").Spells loc := by
  intro h
  rw [Spells, parts_child_name hp (by decide)] at h
  have hmem : Part.parent ∈ Part.root :: loc.reverse.map Part.name := by
    rw [← h]
    exact List.mem_append_right _ (by decide)
  simp at hmem

theorem Spells.fileName? {p : Path} {name : String} {loc : Location} (h : p.Spells (name :: loc)) :
    p.fileName? = some name := by
  simp only [Path.fileName?, show p.parts = _ from h, List.reverse_cons, List.map_append,
    List.map_cons, List.map_nil, ← List.cons_append, List.getLast?_concat]

theorem Spells.not_mem_nul {p : Path} {loc : Location} (h : p.Spells loc)
    (hloc : ∀ n ∈ loc, '\x00' ∉ n.toList) : '\x00' ∉ p.text.toList := by
  intro hnul
  have ⟨s, hs, hc⟩ := Text.exists_piece_of_mem hnul (show '\x00' ≠ '/' by decide)
  by_cases hvoid : s = "" ∨ s = "."
  · rcases hvoid with rfl | rfl <;> simp at hc
  · have hmem : s ∈ plain p.segments := by
      rw [not_or] at hvoid
      exact List.mem_filter.mpr ⟨hs, by simpa using hvoid⟩
    rw [(spells_iff.mp h).2.2, List.mem_reverse] at hmem
    exact hloc s hmem hc

/-- Two spellings of a location hold the same characters but for slashes and dots. -/
theorem Spells.not_mem_nul_of_spells {p q : Path} {loc : Location} (hp : p.Spells loc)
    (hq : q.Spells loc) (h : '\x00' ∉ p.text.toList) : '\x00' ∉ q.text.toList := by
  refine hq.not_mem_nul fun n hn hnul => h ?_
  rw [← List.mem_reverse, ← (spells_iff.mp hp).2.2, plain, List.mem_filter] at hn
  exact Text.mem_toList_of_mem_piece hn.1 hnul

end Path

end Sidecar
