import Mathlib
import Sidecar.Proofs.Spelling
import Sidecar.Summary.Format

/-! How the summary for people is laid out: in columns of one width each, between borders, a row for
each file. What is drawn is told from the texts of the cells alone. -/

namespace Sidecar.Summary

/-- The lines of a text, one more than it has line feeds. -/
def cutLines (text : String) : List String :=
  (text.toList.splitOn '\n').map String.ofList

/-- The widths of the lines that stand in column `i`. -/
def widthsIn (rows : List (List String)) (i : Nat) : Set Nat :=
  {n | ∃ row ∈ rows, ∃ text, row[i]? = some text ∧ ∃ line ∈ cutLines text, n = Text.width line}

/-- The columns are as wide as their widest lines. -/
def IsWidths (rows : List (List String)) (ws : List Nat) : Prop :=
  ∀ i w, ws[i]? = some w → IsGreatest (widthsIn rows i) w

/-- A line in a column of width `w` stands as it is behind a blank, and what it lacks of the width
is made up by blanks, with one more behind them. -/
def Fills (w : Nat) (line field : String) : Prop :=
  ∃ n, Text.width line + n = w ∧
    field = " " ++ line ++ String.ofList (List.replicate n ' ') ++ " "

/-- A line with a given number, of all cells of a row; a cell that has no such line is blank there.
-/
def ShowsLine (ws : List Nat) (row : List String) (n : Nat) (shown : String) : Prop :=
  ∃ fields, shown = "│" ++ "│".intercalate fields ++ "│" ∧
    List.Forall₂ (fun column field => Fills column.1 ((cutLines column.2).getD n "") field)
      (ws.zip row) fields

/-- A row takes as many lines as its tallest cell. -/
structure ShowsRow (ws : List Nat) (row shown : List String) : Prop where
  height : IsGreatest {n | ∃ text ∈ row, n = (cutLines text).length} shown.length
  line : ∀ n line, shown[n]? = some line → ShowsLine ws row n line

/-- A border is two dashes wider than each column. -/
def IsBorder (left cross right : String) (ws : List Nat) (shown : String) : Prop :=
  ∃ dashes, shown = left ++ cross.intercalate dashes ++ right ∧
    List.Forall₂ (fun w dash => dash = String.ofList (List.replicate (w + 2) '─')) ws dashes

/-- What is drawn of a header and some rows, in columns of the given widths. -/
structure Draws (ws : List Nat) (header : List String) (rows : List (List String))
    (shown : List String) : Prop where
  columns : ws.length = header.length
  width : IsWidths (header :: rows) ws
  shown : ∃ top head separator body bottom,
    shown = top :: head ++ separator :: body.flatten ++ [bottom] ∧
    IsBorder "╭" "┬" "╮" ws top ∧ ShowsRow ws header head ∧ IsBorder "├" "┼" "┤" ws separator ∧
    List.Forall₂ (ShowsRow ws) rows body ∧ IsBorder "╰" "┴" "╯" ws bottom

theorem cell_eq_cutLines (text : String) : Table.cell text = cutLines text := by
  rw [Table.cell, Text.piecesOf, Text.pieces_eq_splitOn]
  rfl

theorem cutLines_ne_nil (text : String) : cutLines text ≠ [] := by
  rw [← cell_eq_cutLines]
  exact Text.piecesOf_ne_nil '\n' text

theorem not_mem_of_mem_cutLines {text line : String} (h : line ∈ cutLines text) :
    '\n' ∉ line.toList := by
  rw [← cell_eq_cutLines] at h
  exact Text.not_mem_toList_of_mem_piecesOf h

/-- Lines in front of a text are among its lines. -/
theorem cutLines_intercalate_append {lines : List String} (hne : lines ≠ [])
    (h : ∀ line ∈ lines, '\n' ∉ line.toList) (rest : String) :
    cutLines ("\n".intercalate lines ++ "\n" ++ rest) = lines ++ cutLines rest := by
  have hlines : ∀ cs ∈ lines.map String.toList, '\n' ∉ cs := by
    intro cs hcs
    obtain ⟨line, hline, rfl⟩ := List.mem_map.mp hcs
    exact h line hline
  have htext : ("\n".intercalate lines ++ "\n" ++ rest).toList =
      ['\n'].intercalate (lines.map String.toList) ++ '\n' :: rest.toList := by
    rw [String.toList_append, String.toList_append, String.toList_intercalate, List.append_assoc]
    rfl
  rw [cutLines, htext, List.splitOn_append_cons_self,
    List.splitOn_intercalate '\n' hlines (by simpa using hne), List.map_append, List.map_map,
    Text.ofList_comp_toList, List.map_id]
  rfl

theorem isGreatest_foldl_max (ns : List Nat) (h : ns ≠ []) :
    IsGreatest {n | n ∈ ns} (ns.foldl max 0) := by
  obtain ⟨n, more, rfl⟩ := List.exists_cons_of_ne_nil h
  have hmax : (n :: more).max? = some ((n :: more).foldl max 0) := by
    rw [List.max?_cons', List.foldl_cons, Nat.zero_max]
  obtain ⟨hmem, hle⟩ := List.max?_eq_some_iff.mp hmax
  exact ⟨hmem, fun m hm => hle m hm⟩

/-! ### Widths -/

section

variable {header row : List String} {rows : List (List String)} {ws : List Nat}

theorem widthsIn_append (rows more : List (List String)) (i : Nat) :
    widthsIn (rows ++ more) i = widthsIn rows i ∪ widthsIn more i := by
  ext n
  simp only [widthsIn, List.mem_append, Set.mem_ofPred_eq, Set.mem_union, or_and_right, exists_or]

theorem isWidths_singleton (row : List String) :
    IsWidths [row] (row.map fun text => Table.cellWidth (Table.cell text)) := by
  intro i w hw
  rw [List.getElem?_map, Option.map_eq_some_iff] at hw
  obtain ⟨text, htext, rfl⟩ := hw
  rw [cell_eq_cutLines, Table.cellWidth]
  have hgreatest := isGreatest_foldl_max ((cutLines text).map Text.width)
    (by simpa using cutLines_ne_nil text)
  have hset : widthsIn [row] i = {n | n ∈ (cutLines text).map Text.width} := by
    ext n
    simp [widthsIn, htext, eq_comm]
  rwa [hset]

/-- One more row widens the columns to the widths of its cells. -/
theorem IsWidths.zipWith_max {more : List (List String)} {vs : List Nat} (h : IsWidths rows ws)
    (h' : IsWidths more vs) : IsWidths (rows ++ more) (List.zipWith max ws vs) := by
  -- A column that either side lacks is dropped, so that no length has to be asked for.
  intro i w hw
  obtain ⟨a, b, ha, hb, rfl⟩ := List.getElem?_zipWith_eq_some.mp hw
  rw [widthsIn_append]
  exact (h i a ha).union (h' i b hb)

theorem IsWidths.foldl (h : IsWidths rows ws) (more : List (List String)) :
    IsWidths (rows ++ more) (more.foldl
      (fun ws row => List.zipWith max ws (row.map fun text => Table.cellWidth (Table.cell text)))
      ws) := by
  induction more generalizing rows ws with
  | nil => rwa [List.append_nil]
  | cons row more ih =>
    rw [← List.singleton_append, ← List.append_assoc]
    exact ih (h.zipWith_max (isWidths_singleton row))

theorem isWidths_ofTexts (header : List String) (rows : List (List String)) :
    IsWidths (header :: rows) (Table.ofTexts header rows).widths := by
  have h := (isWidths_singleton header).foldl rows
  rw [Table.widths, Table.ofTexts, List.map_map, List.foldl_map]
  simp only [List.map_map]
  exact h

theorem length_widths (h : ∀ row ∈ rows, row.length = header.length) :
    (Table.ofTexts header rows).widths.length = header.length := by
  have hfold : ∀ ws : List Nat, ws.length = header.length →
      ((rows.map (·.map Table.cell)).foldl
        (fun ws row => List.zipWith max ws (row.map Table.cellWidth)) ws).length =
        header.length := by
    induction rows with
    | nil => exact fun ws hws => hws
    | cons row rows ih =>
      intro ws hws
      have hrow := h row List.mem_cons_self
      refine ih (fun row' hrow' => h row' (List.mem_cons_of_mem _ hrow')) _ ?_
      simp [hws, hrow]
  exact hfold _ (by simp [Table.ofTexts])

/-! ### Rows -/

theorem fills_padded {w : Nat} {line : String} (h : Text.width line ≤ w) :
    Fills w line (Table.padded w line) :=
  ⟨w - Text.width line, by omega, rfl⟩

/-- A line that a cell of a column has, or the empty one, is not wider than the column. -/
theorem IsWidths.width_getD_le (h : IsWidths rows ws) (hrow : row ∈ rows) {i w : Nat}
    {text : String} (hw : ws[i]? = some w) (htext : row[i]? = some text) (n : Nat) :
    Text.width ((cutLines text).getD n "") ≤ w := by
  rw [List.getD_eq_getElem?_getD]
  cases hline : (cutLines text)[n]? with
  | none => exact Nat.zero_le w
  | some line =>
    exact (h i w hw).2 ⟨row, hrow, text, htext, line, List.mem_of_getElem? hline, rfl⟩

theorem IsWidths.showsLine (h : IsWidths rows ws) (hrow : row ∈ rows) (n : Nat) :
    ShowsLine ws row n (Table.rowLine ws (row.map Table.cell) n) := by
  refine ⟨(ws.zip row).map fun column =>
    Table.padded column.1 ((Table.cell column.2).getD n ""), ?_, ?_⟩
  · rw [Table.rowLine, List.zipWith_map_right, List.map_zip_eq_zipWith]
    rfl
  rw [List.forall₂_map_right_iff, List.forall₂_same]
  intro column hcolumn
  obtain ⟨i, hi⟩ := List.mem_iff_getElem?.mp hcolumn
  obtain ⟨hw, htext⟩ := List.getElem?_zip_eq_some.mp hi
  rw [cell_eq_cutLines]
  exact fills_padded (h.width_getD_le hrow hw htext n)

theorem IsWidths.showsRow (h : IsWidths rows ws) (hrow : row ∈ rows) (hne : row ≠ []) :
    ShowsRow ws row (Table.rowLines ws (row.map Table.cell)) where
  height := by
    have hgreatest := isGreatest_foldl_max ((row.map Table.cell).map List.length)
      (by simpa using hne)
    rw [Table.rowLines, List.length_map, List.length_range, Table.height]
    have hset : {n | ∃ text ∈ row, n = (cutLines text).length} =
        {n | n ∈ (row.map Table.cell).map List.length} := by
      ext n
      simp [cell_eq_cutLines, eq_comm]
    rwa [hset]
  line n line hline := by
    rw [Table.rowLines, List.getElem?_map, Option.map_eq_some_iff] at hline
    obtain ⟨m, hm, rfl⟩ := hline
    obtain ⟨_, rfl⟩ := List.getElem?_eq_some_iff.mp hm
    rw [List.getElem_range]
    exact h.showsLine hrow n

theorem isBorder_line (b : Table.Border) (ws : List Nat) :
    IsBorder b.left b.cross b.right ws (b.line ws) := by
  refine ⟨_, rfl, ?_⟩
  rw [List.forall₂_map_right_iff, List.forall₂_same]
  exact fun w _ => rfl

theorem draws_lines_ofTexts (hne : header ≠ [])
    (h : ∀ row ∈ rows, row.length = header.length) :
    ∃ ws, Draws ws header rows (Table.ofTexts header rows).lines := by
  have hwidths := isWidths_ofTexts header rows
  refine ⟨_, length_widths h, hwidths, _, _, _, rows.map fun row =>
    Table.rowLines (Table.ofTexts header rows).widths (row.map Table.cell), _, ?_,
    isBorder_line .top _, hwidths.showsRow List.mem_cons_self hne,
    isBorder_line .separator _, ?_, isBorder_line .bottom _⟩
  · simp only [Table.lines, Table.ofTexts, List.flatMap_def, List.map_map]
    rfl
  · rw [List.forall₂_map_right_iff, List.forall₂_same]
    intro row hrow
    refine hwidths.showsRow (List.mem_cons_of_mem _ hrow) ?_
    rintro rfl
    exact hne (List.length_eq_zero_iff.mp (h [] hrow).symm)

example : (Table.ofTexts ["Path", "Year"] [["水\na", "2023"]]).lines =
    ["╭──────┬──────╮",
     "│ Path │ Year │",
     "├──────┼──────┤",
     "│ 水   │ 2023 │",
     "│ a    │      │",
     "╰──────┴──────╯"] := by
  decide +kernel

end

/-! ### Alignment -/

section

variable {header row parts : List String} {rows : List (List String)} {ws : List Nat}
  {left cross right shown : String}

/-- What borders and bars are made of. -/
def IsBar (s : String) : Prop :=
  '\n' ∉ s.toList ∧ Text.width s = 1

instance : DecidablePred IsBar :=
  fun s => inferInstanceAs (Decidable ('\n' ∉ s.toList ∧ Text.width s = 1))

/-- A line that takes all columns, each with a blank or a dash on both sides and a bar behind it,
and the bar in front. -/
def Spans (ws : List Nat) (line : String) : Prop :=
  '\n' ∉ line.toList ∧ Text.width line = (ws.map (· + 3)).sum + 1

/-- With one bar behind the last part too, each column takes three more than its width. -/
theorem width_intercalate_add_one (hcross : Text.width cross = 1) (hne : ws ≠ [])
    (h : List.Forall₂ (fun w part => Text.width part = w + 2) ws parts) :
    Text.width (cross.intercalate parts) + 1 = (ws.map (· + 3)).sum := by
  induction h with
  | nil => contradiction
  | cons hpart hparts ih =>
    cases hparts with
    | nil => simp [hpart]
    | cons hnext hrest =>
      have hsum := ih (List.cons_ne_nil _ _)
      rw [String.intercalate_cons_cons, Text.width_append, Text.width_append, hpart, hcross,
        List.map_cons, List.sum_cons, ← hsum]
      omega

theorem not_mem_intercalate {c : Char} (hcross : c ∉ cross.toList)
    (h : ∀ part ∈ parts, c ∉ part.toList) : c ∉ (cross.intercalate parts).toList := by
  rw [String.toList_intercalate, ← Text.joined_eq_intercalate]
  intro hc
  rcases Text.mem_joined hc with hc | ⟨cs, hcs, hc⟩
  · exact hcross hc
  · obtain ⟨part, hpart, rfl⟩ := List.mem_map.mp hcs
    exact h part hpart hc

theorem exists_mem_of_forall₂ {α β : Type} {related : α → β → Prop} {as : List α} {bs : List β}
    (h : List.Forall₂ related as bs) {b : β} (hb : b ∈ bs) : ∃ a ∈ as, related a b := by
  induction h with
  | nil => contradiction
  | cons hab _ ih =>
    rcases List.mem_cons.mp hb with rfl | hb
    · exact ⟨_, List.mem_cons_self, hab⟩
    · obtain ⟨a, ha, hab⟩ := ih hb
      exact ⟨a, List.mem_cons_of_mem _ ha, hab⟩

theorem spans_framed (hleft : IsBar left) (hcross : IsBar cross) (hright : IsBar right)
    (hne : ws ≠ [])
    (h : List.Forall₂ (fun w part => '\n' ∉ part.toList ∧ Text.width part = w + 2) ws parts) :
    Spans ws (left ++ cross.intercalate parts ++ right) := by
  have hchars : '\n' ∉ (cross.intercalate parts).toList := by
    refine not_mem_intercalate hcross.1 fun part hpart => ?_
    obtain ⟨_, _, hchars, _⟩ := exists_mem_of_forall₂ h hpart
    exact hchars
  have hwidth := width_intercalate_add_one hcross.2 hne (h.imp fun _ _ hpart => hpart.2)
  constructor
  · rw [String.toList_append, String.toList_append]
    simp only [List.mem_append, not_or]
    exact ⟨⟨hleft.1, hchars⟩, hright.1⟩
  · rw [Text.width_append, Text.width_append, hleft.2, hright.2]
    omega

theorem width_replicate {c : Char} (h : Text.charWidth c = 1) (n : Nat) :
    Text.width (String.ofList (List.replicate n c)) = n := by
  rw [Text.width, String.toList_ofList]
  induction n with
  | zero => rfl
  | succ n ih => rw [List.replicate_succ, Text.widthOf, h, ih, Nat.add_comm]

theorem Fills.width_eq {w : Nat} {line field : String} (h : Fills w line field) :
    Text.width field = w + 2 := by
  obtain ⟨n, hn, rfl⟩ := h
  have hblank : Text.width " " = 1 := by decide
  rw [Text.width_append, Text.width_append, Text.width_append,
    width_replicate (by decide), hblank]
  omega

theorem Fills.not_mem {w : Nat} {line field : String} (h : Fills w line field)
    (hline : '\n' ∉ line.toList) : '\n' ∉ field.toList := by
  obtain ⟨n, _, rfl⟩ := h
  simpa using hline

theorem not_mem_getD_cutLines (text : String) (n : Nat) :
    '\n' ∉ ((cutLines text).getD n "").toList := by
  rw [List.getD_eq_getElem?_getD]
  cases hline : (cutLines text)[n]? with
  | none => exact List.not_mem_nil
  | some line => exact not_mem_of_mem_cutLines (List.mem_of_getElem? hline)

theorem ShowsLine.spans {n : Nat} (h : ShowsLine ws row n shown) (hne : ws ≠ [])
    (hlen : ws.length = row.length) : Spans ws shown := by
  have hbar : IsBar "│" := by decide +kernel
  obtain ⟨fields, rfl, hfields⟩ := h
  refine spans_framed hbar hbar hbar hne ?_
  rw [← List.map_fst_zip hlen.le, List.forall₂_map_left_iff]
  exact hfields.imp fun column _ hfills =>
    ⟨hfills.not_mem (not_mem_getD_cutLines column.2 n), hfills.width_eq⟩

theorem ShowsRow.spans {block : List String} (h : ShowsRow ws row block) (hne : ws ≠ [])
    (hlen : ws.length = row.length) : ∀ line ∈ block, Spans ws line := by
  intro line hline
  obtain ⟨n, hn⟩ := List.mem_iff_getElem?.mp hline
  exact (h.line n line hn).spans hne hlen

theorem IsBorder.spans (h : IsBorder left cross right ws shown) (hne : ws ≠ [])
    (hbars : IsBar left ∧ IsBar cross ∧ IsBar right) : Spans ws shown := by
  obtain ⟨hleft, hcross, hright⟩ := hbars
  obtain ⟨dashes, rfl, hdashes⟩ := h
  refine spans_framed hleft hcross hright hne (hdashes.imp ?_)
  rintro w _ rfl
  exact ⟨by simp, width_replicate (by decide +kernel) (w + 2)⟩

/-- All lines of a table are equally wide. -/
theorem Draws.spans {lines : List String} (h : Draws ws header rows lines) (hne : header ≠ [])
    (hlen : ∀ row ∈ rows, row.length = header.length) : ∀ line ∈ lines, Spans ws line := by
  obtain ⟨top, head, separator, body, bottom, rfl, htop, hhead, hseparator, hbody, hbottom⟩ :=
    h.shown
  have hws : ws ≠ [] := by
    rintro rfl
    exact hne (List.length_eq_zero_iff.mp h.columns.symm)
  intro line hline
  simp only [List.cons_append, List.mem_cons, List.mem_append, List.mem_flatten, List.not_mem_nil,
    or_false] at hline
  rcases hline with rfl | (hline | rfl | ⟨block, hblock, hline⟩) | rfl
  · exact htop.spans hws (by decide +kernel)
  · exact hhead.spans hws h.columns line hline
  · exact hseparator.spans hws (by decide +kernel)
  · obtain ⟨row, hrow, hshows⟩ := exists_mem_of_forall₂ hbody hblock
    exact hshows.spans hws (h.columns.trans (hlen row hrow).symm) line hline
  · exact hbottom.spans hws (by decide +kernel)

end

/-! ### The table of a run -/

/-- A digest is cut behind its first twelve bytes, where a character ends there. -/
structure IsShort (sha256 short : String) : Prop where
  cut : ∀ front rest, sha256 = front ++ rest → front.utf8ByteSize = 12 → short = front
  whole : (∀ front rest, sha256 = front ++ rest → front.utf8ByteSize ≠ 12) → short = sha256

/-- What is told of a file, column by column. -/
def Tabulates (file : ProcessedFile) (row : List String) : Prop :=
  ∃ short, IsShort file.sha256 short ∧
    row = [file.path, file.contentId, yearText file.year, short]

/-- The first bytes of a text are a prefix that takes as many, and there is no other such. -/
theorem firstBytes_eq_some_iff {n : Nat} {cs front : List Char} :
    shortDigest.firstBytes n cs = some front ↔ front <+: cs ∧ String.utf8Len front = n := by
  fun_induction shortDigest.firstBytes n cs generalizing front with
  | case1 cs =>
    cases front with
    | nil => simp
    | cons c front =>
      have := c.utf8Size_pos
      simp only [Option.some.injEq, reduceCtorEq, String.utf8Len_cons, false_iff, not_and]
      omega
  | case2 n =>
    simp only [List.prefix_nil, reduceCtorEq, false_iff, not_and]
    rintro rfl
    simp
  | case3 n c cs hfits ih =>
    cases front with
    | nil => simp
    | cons d front =>
      rw [Option.map_eq_some_iff, List.cons_prefix_cons, String.utf8Len_cons]
      constructor
      · rintro ⟨_, hfront, heq⟩
        obtain ⟨rfl, rfl⟩ := List.cons.inj heq
        obtain ⟨hbegins, hsize⟩ := ih.mp hfront
        exact ⟨⟨rfl, hbegins⟩, by omega⟩
      · rintro ⟨⟨rfl, hbegins⟩, hsize⟩
        exact ⟨front, ih.mpr ⟨hbegins, by omega⟩, rfl⟩
  | case4 n c cs hlong =>
    cases front with
    | nil => simp
    | cons d front =>
      rw [List.cons_prefix_cons, String.utf8Len_cons]
      simp only [reduceCtorEq, false_iff, not_and]
      rintro ⟨rfl, _⟩
      omega

theorem firstBytes_twelve_eq_some_iff {sha256 front : String} :
    shortDigest.firstBytes 12 sha256.toList = some front.toList ↔
      ∃ rest, sha256 = front ++ rest ∧ front.utf8ByteSize = 12 := by
  have hsize : front.utf8ByteSize = String.utf8Len front.toList := by
    rw [← String.utf8ByteSize_ofList, String.ofList_toList]
  rw [firstBytes_eq_some_iff, hsize, exists_and_right]
  refine and_congr_left fun _ => ⟨fun ⟨rest, hrest⟩ => ⟨String.ofList rest, ?_⟩, ?_⟩
  · rw [← String.toList_inj, String.toList_append, String.toList_ofList, hrest]
  · rintro ⟨rest, rfl⟩
    exact ⟨rest.toList, (String.toList_append ..).symm⟩

theorem isShort_shortDigest (sha256 : String) : IsShort sha256 (shortDigest sha256) where
  cut front rest hcut hsize := by
    rw [shortDigest, firstBytes_twelve_eq_some_iff.mpr ⟨rest, hcut, hsize⟩]
    exact String.ofList_toList
  whole hnone := by
    rw [shortDigest]
    split
    next cs hcs =>
      rw [← String.toList_ofList (l := cs)] at hcs
      obtain ⟨rest, hcut, hsize⟩ := firstBytes_twelve_eq_some_iff.mp hcs
      exact absurd hsize (hnone _ rest hcut)
    next => rfl

/-- The summary for people begins with the table of the files, in their order. -/
theorem exists_draws_tableText (coloured : Bool) {r : Report} (h : r.files ≠ []) :
    ∃ ws rows shown rest, List.Forall₂ Tabulates r.files rows ∧
      Draws ws ["Path", "Content ID", "Year", "SHA-256"] rows shown ∧
      cutLines (tableText coloured r) = shown ++ rest := by
  have hrows : ∀ row ∈ r.files.map fun f =>
      [f.path, f.contentId, yearText f.year, shortDigest f.sha256],
      row.length = ["Path", "Content ID", "Year", "SHA-256"].length := by
    intro row hrow
    obtain ⟨f, _, rfl⟩ := List.mem_map.mp hrow
    rfl
  obtain ⟨ws, hdraws⟩ := draws_lines_ofTexts (List.cons_ne_nil "Path" _) hrows
  rw [tableText, if_neg h, String.append_assoc]
  have hspans := hdraws.spans (List.cons_ne_nil _ _) hrows
  refine ⟨ws, _, _, _, ?_, hdraws,
    cutLines_intercalate_append (List.cons_ne_nil _ _) (fun line hline => (hspans line hline).1) _⟩
  rw [List.forall₂_map_right_iff, List.forall₂_same]
  exact fun f _ => ⟨_, isShort_shortDigest f.sha256, rfl⟩

def twoLineReport : Report where
  files := [⟨"水\na", "TAX_A", some 2023, "0123456789abcdef", "a.metadata.json"⟩]
  dryRun := false
  collisions := []

theorem exists_draws_tableText_twoLineReport : twoLineReport.files ≠ [] ∧
    ∃ ws rows shown rest, List.Forall₂ Tabulates twoLineReport.files rows ∧
      Draws ws ["Path", "Content ID", "Year", "SHA-256"] rows shown ∧
      cutLines (tableText false twoLineReport) = shown ++ rest :=
  have h : twoLineReport.files ≠ [] := List.cons_ne_nil _ _
  ⟨h, exists_draws_tableText false h⟩

end Sidecar.Summary
