import Sidecar.Json.Basic

/-! Strings of JSON text. A character may stand for itself, be written by a short escape or by its
UTF-16 units; the scanner takes each of these for the character, and what is printed is one of
them. -/

namespace Sidecar.Json

/-- The characters that have an escape of two characters, each with its letter. -/
def shortEscapes : List (Char × Char) :=
  [('"', '"'), ('\\', '\\'), ('/', '/'), ('\x08', 'b'), ('\x0c', 'f'), ('\n', 'n'), ('\r', 'r'),
    ('\t', 't')]

/-- A hexadecimal digit, in either case. -/
def IsHexDigit (c : Char) (n : Nat) : Prop :=
  n < 16 ∧ (c = hexDigit n ∨ c = (hexDigit n).toUpper)

/-- How a piece of a string is written. -/
inductive Piece.Written : Piece → List Char → Prop where
  | plain {c} : c ≠ '"' → c ≠ '\\' → 0x20 ≤ c.toNat → Written (.char c) [c]
  | escape {c e} : (c, e) ∈ shortEscapes → Written (.char c) ['\\', e]
  | unit {u a b c d} : IsHexDigit a (u / 0x1000) → IsHexDigit b (u / 0x100 % 16) →
      IsHexDigit c (u / 16 % 16) → IsHexDigit d (u % 16) → Written (.unit u) ['\\', 'u', a, b, c, d]

/-- The pieces of what stands between two quotes. -/
inductive Written : List Piece → List Char → Prop where
  | nil : Written [] []
  | cons {p ps cs body} : p.Written cs → Written ps body → Written (p :: ps) (cs ++ body)

/-- The characters that pieces name: a character of the basic plane takes one unit, any other a
high and a low surrogate. -/
inductive Names : List Piece → List Char → Prop where
  | nil : Names [] []
  | char {c ps cs} : Names ps cs → Names (.char c :: ps) (c :: cs)
  | unit {c ps cs} : Names ps cs → Names (.unit c.toNat :: ps) (c :: cs)
  | pair {c high low ps cs} : 0xD800 ≤ high → high ≤ 0xDBFF → 0xDC00 ≤ low → low ≤ 0xDFFF →
      c.toNat = 0x10000 + (high - 0xD800) * 0x400 + (low - 0xDC00) → Names ps cs →
      Names (.unit high :: .unit low :: ps) (c :: cs)

/-- A string of JSON text, whether or not it names characters. -/
def IsQuoted (cs : List Char) : Prop :=
  ∃ ps body, Written ps body ∧ cs = '"' :: body ++ ['"']

/-- A spelling of a string, its quotes included. -/
def Quotes (s : String) (cs : List Char) : Prop :=
  ∃ ps body, Written ps body ∧ Names ps s.toList ∧ cs = '"' :: body ++ ['"']

theorem Quotes.isQuoted {s : String} {cs : List Char} (h : Quotes s cs) : IsQuoted cs :=
  have ⟨ps, body, hw, _, hcs⟩ := h
  ⟨ps, body, hw, hcs⟩

/-! Scanning. -/

theorem hexValue?_of_isHexDigit {c : Char} {n : Nat} (h : IsHexDigit c n) :
    hexValue? c = some n := by
  have hall : ∀ n < 16,
      hexValue? (hexDigit n) = some n ∧ hexValue? (hexDigit n).toUpper = some n := by
    decide
  obtain ⟨hn, rfl | rfl⟩ := h
  · exact (hall n hn).1
  · exact (hall n hn).2

theorem shortEscape?_of_mem {c e : Char} (h : (c, e) ∈ shortEscapes) :
    shortEscape? e = some c ∧ e ≠ 'u' := by
  revert h
  simp only [shortEscapes, List.mem_cons, Prod.mk.injEq, List.not_mem_nil, or_false]
  rintro (⟨rfl, rfl⟩ | ⟨rfl, rfl⟩ | ⟨rfl, rfl⟩ | ⟨rfl, rfl⟩ | ⟨rfl, rfl⟩ | ⟨rfl, rfl⟩ | ⟨rfl, rfl⟩ |
    ⟨rfl, rfl⟩) <;> decide

theorem unitOf?_of_isHexDigit {u : Nat} {a b c d : Char} (ha : IsHexDigit a (u / 0x1000))
    (hb : IsHexDigit b (u / 0x100 % 16)) (hc : IsHexDigit c (u / 16 % 16))
    (hd : IsHexDigit d (u % 16)) : unitOf? a b c d = some u := by
  have hsum : ((u / 0x1000 * 16 + u / 0x100 % 16) * 16 + u / 16 % 16) * 16 + u % 16 = u := by omega
  simp only [unitOf?, hexValue?_of_isHexDigit ha, hexValue?_of_isHexDigit hb,
    hexValue?_of_isHexDigit hc, hexValue?_of_isHexDigit hd, bind, Option.bind, pure, hsum]

theorem scanText_piece {p : Piece} {cs : List Char} (h : p.Written cs) (rest : List Char) :
    scanText (cs ++ rest) = (scanText rest).map fun (ps, rest) => (p :: ps, rest) := by
  cases h with
  | @plain c hquote hslash hspace =>
    have hkept : ¬(c = '\\' ∨ c.toNat < 0x20) := by
      rw [not_or]
      exact ⟨hslash, Nat.not_lt.mpr hspace⟩
    rw [List.singleton_append,
      scanText.eq_4 _ _ (by simpa using hquote) (by simp_all) (by simp_all), if_neg hkept]
    cases scanText rest <;> rfl
  | escape he =>
    have ⟨hchar, hu⟩ := shortEscape?_of_mem he
    rw [List.cons_append, List.cons_append, List.nil_append, scanText.eq_3 _ _ (by simp_all), hchar]
    cases scanText rest <;> rfl
  | unit ha hb hc hd =>
    simp only [List.cons_append, List.nil_append]
    rw [scanText, unitOf?_of_isHexDigit ha hb hc hd]
    cases scanText rest <;> rfl

/-- The scanner takes a string through its closing quote. -/
theorem scanText_append {ps : List Piece} {body : List Char} (h : Written ps body)
    (rest : List Char) : scanText (body ++ '"' :: rest) = some (ps, rest) := by
  induction h with
  | nil => rw [List.nil_append, scanText]
  | cons hp _ ih =>
    rw [List.append_assoc, scanText_piece hp, ih]
    rfl

theorem not_surrogate (c : Char) :
    isLowSurrogate c.toNat = false ∧ isHighSurrogate c.toNat = false := by
  have hc : c.toNat < 0xD800 ∨ 0xDFFF < c.toNat ∧ c.toNat < 0x110000 := c.valid
  exact ⟨decide_eq_false (by omega), decide_eq_false (by omega)⟩

theorem decode?_eq_of_names {ps : List Piece} {cs : List Char} (h : Names ps cs) :
    decode? ps = some cs := by
  induction h with
  | nil => rw [decode?]
  | char _ ih => rw [decode?, ih]; rfl
  | @unit c ps cs _ ih =>
    have ⟨hlow, hhigh⟩ := not_surrogate c
    unfold decode?
    rw [hlow, hhigh, if_neg Bool.false_ne_true, if_neg Bool.false_ne_true, ih, Char.ofNat_toNat]
    rfl
  | @pair c high low ps cs hhigh hhigh' hlow hlow' hc _ ih =>
    have hnot : isLowSurrogate high = false := decide_eq_false (by omega)
    have hfirst : isHighSurrogate high = true := decide_eq_true ⟨hhigh, hhigh'⟩
    have hsecond : isLowSurrogate low = true := decide_eq_true ⟨hlow, hlow'⟩
    rw [decode?, hnot, hfirst, if_neg (by simp), if_pos rfl]
    simp only [hsecond, if_true, ih, ← hc, Char.ofNat_toNat, Option.map_some]

theorem textOf?_eq_of_names {ps : List Piece} {s : String} (h : Names ps s.toList) :
    textOf? ps = some s := by
  rw [textOf?, decode?_eq_of_names h, Option.map_some, String.ofList_toList]

/-! What is printed. -/

theorem isHexDigit_hexDigit {n : Nat} (h : n < 16) : IsHexDigit (hexDigit n) n :=
  ⟨h, .inl rfl⟩

theorem escapeChar_cases (c : Char) :
    (∃ e, (c, e) ∈ shortEscapes ∧ escapeChar c = ['\\', e]) ∨
    (c.toNat < 0x20 ∧ escapeChar c =
      ['\\', 'u', '0', '0', hexDigit (c.toNat / 16), hexDigit (c.toNat % 16)]) ∨
    (c ≠ '"' ∧ c ≠ '\\' ∧ 0x20 ≤ c.toNat ∧ escapeChar c = [c]) := by
  unfold escapeChar
  split
  next h => exact .inl ⟨'"', by rw [h]; decide, rfl⟩
  next hquote =>
    split
    next h => exact .inl ⟨'\\', by rw [h]; decide, rfl⟩
    next hslash =>
      repeat' split
      next h => exact .inl ⟨'b', by rw [h]; decide, rfl⟩
      next h => exact .inl ⟨'f', by rw [h]; decide, rfl⟩
      next h => exact .inl ⟨'n', by rw [h]; decide, rfl⟩
      next h => exact .inl ⟨'r', by rw [h]; decide, rfl⟩
      next h => exact .inl ⟨'t', by rw [h]; decide, rfl⟩
      next h => exact .inr (.inl ⟨h, rfl⟩)
      next h => exact .inr (.inr ⟨hquote, hslash, Nat.not_lt.mp h, rfl⟩)

/-- A character is printed as one piece that names it. -/
theorem exists_written_escapeChar (c : Char) :
    ∃ p : Piece, p.Written (escapeChar c) ∧ (p = .char c ∨ p = .unit c.toNat) := by
  rcases escapeChar_cases c with ⟨e, he, hesc⟩ | ⟨hcontrol, hesc⟩ | ⟨hquote, hslash, hspace, hesc⟩
  · exact ⟨.char c, hesc ▸ .escape he, .inl rfl⟩
  · have hzero (n : Nat) (hn : n = 0) : IsHexDigit '0' n := ⟨by omega, .inl (by rw [hn]; decide)⟩
    have hsixteen : c.toNat / 16 % 16 = c.toNat / 16 := by omega
    refine ⟨.unit c.toNat, hesc ▸ .unit (hzero _ (by omega)) (hzero _ (by omega)) ?_ ?_, .inr rfl⟩
    · rw [hsixteen]
      exact isHexDigit_hexDigit (by omega)
    · exact isHexDigit_hexDigit (by omega)
  · exact ⟨.char c, hesc ▸ .plain hquote hslash hspace, .inl rfl⟩

theorem exists_written_flatMap (cs : List Char) :
    ∃ ps, Written ps (cs.flatMap escapeChar) ∧ Names ps cs := by
  induction cs with
  | nil => exact ⟨[], .nil, .nil⟩
  | cons c cs ih =>
    have ⟨ps, hw, hn⟩ := ih
    have ⟨p, hp, hname⟩ := exists_written_escapeChar c
    refine ⟨p :: ps, ?_, ?_⟩
    · rw [List.flatMap_cons]
      exact .cons hp hw
    · cases hname with
      | inl h => exact h ▸ .char hn
      | inr h => exact h ▸ .unit hn

theorem quotes_quote (s : String) : Quotes s (quote s.toList) :=
  have ⟨ps, hw, hn⟩ := exists_written_flatMap s.toList
  ⟨ps, s.toList.flatMap escapeChar, hw, hn, rfl⟩

end Sidecar.Json
