import Mathlib
import Sidecar.Proofs.Parts

/-! Paths in bytes. The bytes of a text are shown as that text, so on paths that are text nothing is
lost, and they are cut and shown like the texts themselves. -/

namespace Sidecar

namespace Text

/-! ### Bytes shown as text -/

section

variable {code missing least greatest n : Nat}

theorem decodeFrom_ascii (h : n < 0x80) (rest : List UInt8) :
    decodeFrom none (UInt8.ofNat n :: rest) = Char.ofNat n :: decodeFrom none rest := by
  rw [decodeFrom, UInt8.toNat_ofNat_of_lt' (Nat.lt_trans h (by decide)), decodeNext, decodeFirst,
    if_pos h]
  rfl

theorem decodeFrom_first {u : Unfinished} (h : Unfinished.ofFirst? n = some u) (hn : n < 256)
    (hlong : 0x80 ≤ n) (rest : List UInt8) :
    decodeFrom none (UInt8.ofNat n :: rest) = decodeFrom (some u) rest := by
  rw [decodeFrom, UInt8.toNat_ofNat_of_lt' hn, decodeNext, decodeFirst,
    if_neg (Nat.not_lt.mpr hlong), h]
  rfl

/-- A byte that is neither the first nor the last of its character. -/
theorem decodeFrom_inner (h : least ≤ n ∧ n ≤ greatest) (hn : n < 256) (rest : List UInt8) :
    decodeFrom (some ⟨code, missing + 2, least, greatest⟩) (UInt8.ofNat n :: rest) =
      decodeFrom (some ⟨code * 64 + (n - 0x80), missing + 1, 0x80, 0xbf⟩) rest := by
  rw [decodeFrom, UInt8.toNat_ofNat_of_lt' hn, decodeNext, if_pos h, if_neg (by simp)]
  rfl

theorem decodeFrom_last (h : least ≤ n ∧ n ≤ greatest) (hn : n < 256) (rest : List UInt8) :
    decodeFrom (some ⟨code, 1, least, greatest⟩) (UInt8.ofNat n :: rest) =
      Char.ofNat (code * 64 + (n - 0x80)) :: decodeFrom none rest := by
  rw [decodeFrom, UInt8.toNat_ofNat_of_lt' hn, decodeNext, if_pos h]
  rfl

end

/-- By the number of bytes: the bounds on the second one are what tells the character's range. -/
theorem decodeFrom_utf8EncodeChar (c : Char) (rest : List UInt8) :
    decodeFrom none (String.utf8EncodeChar c ++ rest) = c :: decodeFrom none rest := by
  have hvalid : c.val.toNat < 0xd800 ∨ 0xdfff < c.val.toNat ∧ c.val.toNat < 0x110000 := c.valid
  have hc {m : Nat} (hm : m = c.val.toNat) : Char.ofNat m = c := hm ▸ Char.ofNat_toNat c
  unfold String.utf8EncodeChar
  generalize c.val.toNat = v at hvalid hc
  dsimp only
  split_ifs with hone htwo hthree
  · rw [List.singleton_append, decodeFrom_ascii (by omega), hc rfl]
  · have hfirst := Unfinished.ofFirst?.eq_1 (v / 64 % 32 + 192)
    rw [if_pos (by omega)] at hfirst
    simp only [List.cons_append, List.nil_append]
    rw [decodeFrom_first hfirst (by omega) (by omega), decodeFrom_last (by omega) (by omega),
      hc (by omega)]
  · have hfirst := Unfinished.ofFirst?.eq_1 (v / 4096 % 16 + 224)
    rw [if_neg (by omega), if_pos (by omega)] at hfirst
    simp only [List.cons_append, List.nil_append]
    rw [decodeFrom_first hfirst (by omega) (by omega),
      decodeFrom_inner (by split_ifs <;> omega) (by omega),
      decodeFrom_last (by omega) (by omega), hc (by omega)]
  · have hfirst := Unfinished.ofFirst?.eq_1 (v / 262144 % 8 + 240)
    rw [if_neg (by omega), if_neg (by omega), if_pos (by omega)] at hfirst
    simp only [List.cons_append, List.nil_append]
    rw [decodeFrom_first hfirst (by omega) (by omega),
      decodeFrom_inner (by split_ifs <;> omega) (by omega), decodeFrom_inner (by omega) (by omega),
      decodeFrom_last (by omega) (by omega), hc (by omega)]

theorem decode_utf8 (s : String) : decode (utf8 s) = s := by
  have hchars (cs : List Char) : decodeFrom none (cs.flatMap String.utf8EncodeChar) = cs := by
    induction cs with
    | nil => rfl
    | cons c cs ih => rw [List.flatMap_cons, decodeFrom_utf8EncodeChar, ih]
  rw [decode, utf8, hchars, String.ofList_toList]

theorem utf8_injective : Function.Injective utf8 :=
  Function.LeftInverse.injective decode_utf8

/-- What stands in front of the first separator belongs to the first piece. -/
theorem pieces_append {sep : Char} {a b first : List Char} {more : List (List Char)} (h : sep ∉ a)
    (hb : pieces sep b = first :: more) : pieces sep (a ++ b) = (a ++ first) :: more := by
  induction a with
  | nil => exact hb
  | cons c a ih =>
    rw [List.mem_cons, not_or] at h
    rw [List.cons_append, pieces, if_neg (Ne.symm h.1), ih h.2]
    rfl

end Text

namespace BytePath

/-! ### Bytes spelled as characters -/

theorem toNat_ofNat_toNat (b : UInt8) : (Char.ofNat b.toNat).toNat = b.toNat := by
  rw [Char.toNat_ofNat, if_pos (.inl (Nat.lt_trans b.toNat_lt (by decide)))]

theorem unspell_spell (bytes : List UInt8) : unspell (spell bytes) = bytes := by
  have hbyte (b : UInt8) : UInt8.ofNat (Char.ofNat b.toNat).toNat = b := by
    rw [toNat_ofNat_toNat, UInt8.ofNat_toNat]
  rw [unspell, spell, String.toList_ofList, List.map_map]
  exact List.map_id'' hbyte bytes

theorem spell_injective : Function.Injective spell :=
  Function.LeftInverse.injective unspell_spell

theorem spell_append (a b : List UInt8) : spell (a ++ b) = spell a ++ spell b := by
  rw [spell, List.map_append, String.ofList_append]
  rfl

/-- The characters that spell a character's bytes. -/
def spellChar (c : Char) : List Char :=
  (String.utf8EncodeChar c).map fun b => Char.ofNat b.toNat

def spellText (s : String) : String :=
  spell (Text.utf8 s)

theorem spellText_injective : Function.Injective spellText :=
  spell_injective.comp Text.utf8_injective

theorem toList_spellText (s : String) : (spellText s).toList = s.toList.flatMap spellChar := by
  rw [spellText, spell, String.toList_ofList, Text.utf8, List.map_flatMap]
  rfl

theorem spellText_append (s t : String) : spellText (s ++ t) = spellText s ++ spellText t := by
  rw [spellText, Text.utf8, String.toList_append, List.flatMap_append, spell_append]
  rfl

/-- No other character has a byte of ASCII. -/
theorem eq_of_mem_spellChar {c d : Char} (hd : d.toNat < 0x80) (h : d ∈ spellChar c) : c = d := by
  obtain ⟨b, hb, rfl⟩ := List.mem_map.mp h
  rw [toNat_ofNat_toNat] at hd
  have hlong {n : Nat} (heq : b = UInt8.ofNat n) (hn : n < 256) (hlong : 0x80 ≤ n) :
      c = Char.ofNat b.toNat := by
    rw [heq, UInt8.toNat_ofNat_of_lt' hn] at hd
    omega
  unfold String.utf8EncodeChar at hb
  dsimp only at hb
  split_ifs at hb
  · rw [List.mem_singleton.mp hb, UInt8.toNat_ofNat_of_lt' (show c.val.toNat < 256 by omega)]
    exact (Char.ofNat_toNat c).symm
  · simp only [List.mem_cons, List.not_mem_nil, or_false] at hb
    rcases hb with hb | hb <;> exact hlong hb (by omega) (by omega)
  · simp only [List.mem_cons, List.not_mem_nil, or_false] at hb
    rcases hb with hb | hb | hb <;> exact hlong hb (by omega) (by omega)
  · simp only [List.mem_cons, List.not_mem_nil, or_false] at hb
    rcases hb with hb | hb | hb | hb <;> exact hlong hb (by omega) (by omega)

theorem piecesOf_spellText (s : String) :
    Text.piecesOf '/' (spellText s) = (Text.piecesOf '/' s).map spellText := by
  have hslash : spellChar '/' = ['/'] := by decide
  have hpieces (cs : List Char) : Text.pieces '/' (cs.flatMap spellChar) =
      (Text.pieces '/' cs).map (List.flatMap spellChar) := by
    induction cs with
    | nil => rfl
    | cons c cs ih =>
      rw [List.flatMap_cons]
      by_cases hc : c = '/'
      · rw [hc, hslash, List.singleton_append, Text.pieces, if_pos rfl, ih, Text.pieces,
          if_pos rfl]
        rfl
      · have hfree : '/' ∉ spellChar c := fun h => hc (eq_of_mem_spellChar (by decide) h)
        obtain ⟨first, more, hcs⟩ := List.exists_cons_of_ne_nil (Text.pieces_ne_nil '/' cs)
        rw [hcs, List.map_cons] at ih
        have hone : Text.pieces '/' (c :: cs) = (c :: first) :: more :=
          Text.pieces_append (a := [c]) (by simpa using Ne.symm hc) hcs
        rw [Text.pieces_append hfree ih, hone, List.map_cons, List.flatMap_cons]
  rw [Text.piecesOf, toList_spellText, hpieces, Text.piecesOf, List.map_map, List.map_map]
  apply List.map_congr_left
  intro piece _
  rw [← String.toList_inj]
  simp [toList_spellText]

/-! ### Paths that are text -/

theorem spelled_inBytes (p : Path) : p.inBytes.spelled = ⟨spellText p.text⟩ :=
  rfl

theorem shown_inBytes (p : Path) : p.inBytes.shown = p :=
  congrArg Path.mk (Text.decode_utf8 p.text)

theorem decode_unspell_spellText (s : String) : Text.decode (unspell (spellText s)) = s := by
  rw [spellText, unspell_spell, Text.decode_utf8]

end BytePath

open BytePath

/-- No name but the text itself is spelled like what names nothing, or like dots. -/
theorem spellText_eq_iff (s : String) : (spellText s = "" ↔ s = "") ∧
    (spellText s = "." ↔ s = ".") ∧ (spellText s = ".." ↔ s = "..") :=
  ⟨spellText_injective.eq_iff' (by decide), spellText_injective.eq_iff' (by decide),
    spellText_injective.eq_iff' (by decide)⟩

/-- The part with its name spelled in bytes. -/
def Path.Part.spelled : Path.Part → Path.Part
  | .name n => .name (spellText n)
  | p => p

theorem Path.Part.spelled_injective : Function.Injective Path.Part.spelled := by
  intro p q h
  cases p <;> cases q
  case name.name m n => exact congrArg _ (spellText_injective (Path.Part.name.inj h))
  all_goals first | rfl | contradiction

theorem Path.Part.ofFirst_spellText (s : String) :
    Path.Part.ofFirst (spellText s) = (Path.Part.ofFirst s).spelled := by
  obtain ⟨hempty, hdot, hup⟩ := spellText_eq_iff s
  simp only [Path.Part.ofFirst, hempty, hdot, hup]
  split_ifs <;> rfl

theorem Path.Part.ofInner?_spellText (s : String) :
    Path.Part.ofInner? (spellText s) = (Path.Part.ofInner? s).map Path.Part.spelled := by
  obtain ⟨hempty, hdot, hup⟩ := spellText_eq_iff s
  simp only [Path.Part.ofInner?, hempty, hdot, hup]
  split_ifs <;> rfl

theorem Path.parts_spelled (p : Path) :
    p.inBytes.spelled.parts = p.parts.map Path.Part.spelled := by
  have hempty := (spellText_eq_iff p.text).1
  have hsegments : p.inBytes.spelled.segments = p.segments.map spellText :=
    piecesOf_spellText p.text
  rw [Path.parts, Path.parts, hsegments]
  rw [spelled_inBytes, if_congr hempty rfl rfl]
  split_ifs
  · rfl
  · cases p.segments with
    | nil => rfl
    | cons first rest =>
      rw [List.map_cons]
      dsimp only
      rw [List.map_cons, Path.Part.ofFirst_spellText, List.filterMap_map, List.map_filterMap]
      congr 2
      funext s
      exact Path.Part.ofInner?_spellText s

theorem Path.partsBelow_spelled (root path : Path) :
    root.inBytes.spelled.partsBelow path.inBytes.spelled =
      (root.partsBelow path).map (List.map Path.Part.spelled) := by
  have hle : (root.parts.map Path.Part.spelled).isPrefixOf (path.parts.map Path.Part.spelled) ↔
      root.parts.isPrefixOf path.parts := by
    rw [List.isPrefixOf_iff_prefix, List.isPrefixOf_iff_prefix,
      List.prefix_map_iff_of_injective Path.Part.spelled_injective]
  rw [Path.partsBelow, Path.partsBelow, Path.parts_spelled, Path.parts_spelled,
    if_congr hle rfl rfl]
  split_ifs
  · rw [List.length_map, Option.map_some, List.map_drop]
  · rfl

theorem namesOf?_spelled (ps : List Path.Part) :
    namesOf? (ps.map Path.Part.spelled) = (namesOf? ps).map (List.map spellText) := by
  induction ps with
  | nil => rfl
  | cons p ps ih =>
    rw [List.map_cons]
    cases p with
    | name n =>
      rw [Path.Part.spelled, namesOf?, ih, namesOf?, Option.map_map, Option.map_map]
      rfl
    | here => exact ih
    | root | parent => rfl

theorem relativePath_inBytes (root path : Path) :
    BytePath.relativePath root path = relativePath root path :=
  rfl

/-- On paths that are text nothing is lost. -/
theorem relativePath_eq (root path : Path) : relativePath root path =
    match (root.partsBelow path).bind namesOf? with
    | some names => .ok ("/".intercalate names)
    | none => .error (.outsideRoot path root) := by
  have hnames : (root.inBytes.spelled.partsBelow path.inBytes.spelled).bind namesOf? =
      ((root.partsBelow path).bind namesOf?).map (List.map spellText) := by
    rw [Path.partsBelow_spelled]
    cases root.partsBelow path with
    | none => rfl
    | some ps => exact namesOf?_spelled ps
  rw [relativePath, BytePath.relativePath, hnames, shown_inBytes, shown_inBytes]
  cases (root.partsBelow path).bind namesOf? with
  | none => rfl
  | some names =>
    have hshown : (names.map spellText).map (fun n => Text.decode (unspell n)) = names := by
      rw [List.map_map]
      exact List.map_id'' decode_unspell_spellText names
    rw [Option.map_some]
    dsimp only
    rw [hshown]

end Sidecar
