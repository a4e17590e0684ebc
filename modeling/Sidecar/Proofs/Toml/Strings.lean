import Mathlib
import Sidecar.Proofs.Quoting
import Sidecar.Toml.Text

/-! Strings of TOML by their grammar. In double quotes a character stands for itself or is escaped;
the reader takes what is written for the characters it stands for. What stands in triple quotes is
read to its end. -/

namespace Sidecar.Toml

/-- A number in hexadecimal digits. -/
inductive WritesHex : Nat → List Char → Prop where
  | nil : WritesHex 0 []
  | concat {n k ds d} : WritesHex n ds → Json.IsHexDigit d k → WritesHex (16 * n + k) (ds ++ [d])

/-- The characters that have an escape of two characters, each with its letter. -/
def letterEscapes : List (Char × Char) :=
  [('\x08', 'b'), ('\t', 't'), ('\n', 'n'), ('\x0c', 'f'), ('\r', 'r'), ('"', '"'), ('\\', '\\')]

/-- An escape of a character: by a letter, or by its code point in four or eight digits. -/
inductive Escapes (c : Char) : List Char → Prop where
  | letter {e} : (c, e) ∈ letterEscapes → Escapes c ['\\', e]
  | four {ds} : WritesHex c.toNat ds → ds.length = 4 → Escapes c ('\\' :: 'u' :: ds)
  | eight {ds} : WritesHex c.toNat ds → ds.length = 8 → Escapes c ('\\' :: 'U' :: ds)

/-- Characters, and what stands for them between double quotes. -/
inductive Spells : List Char → List Char → Prop where
  | nil : Spells [] []
  | plain {c cs body} : isPlain c = true → c ≠ '"' → c ≠ '\\' → Spells cs body →
      Spells (c :: cs) (c :: body)
  | escape {c e cs body} : Escapes c e → Spells cs body → Spells (c :: cs) (e ++ body)

/-- A string in double quotes. -/
def Quotes (s : String) (cs : List Char) : Prop :=
  ∃ body, Spells s.toList body ∧ cs = '"' :: (body ++ ['"'])

/-- A string in single quotes, which has no escapes. -/
def QuotesLiterally (s : String) (cs : List Char) : Prop :=
  (∀ c ∈ s.toList, isPlain c = true ∧ c ≠ '\'') ∧ cs = '\'' :: (s.toList ++ ['\''])

def IsNewline (cs : List Char) : Prop :=
  cs = ['\n'] ∨ cs = ['\r', '\n']

def IsBlanks (cs : List Char) : Prop :=
  ∀ c ∈ cs, isBlank c = true

/-- What lines between triple double quotes are made of, quotes apart: characters, line ends and
escapes, and a backslash that joins a line to the next. -/
inductive IsBasicPiece : List Char → Prop where
  | plain {c} : isPlain c = true → c ≠ '"' → c ≠ '\\' → IsBasicPiece [c]
  | newline {nl} : IsNewline nl → IsBasicPiece nl
  | escape {c e} : Escapes c e → IsBasicPiece e
  | join {a nl} : IsBlanks a → IsNewline nl → IsBasicPiece ('\\' :: (a ++ nl))

/-- What lines between triple single quotes are made of, quotes apart. -/
inductive IsLiteralPiece : List Char → Prop where
  | plain {c} : isPlain c = true → c ≠ '\'' → IsLiteralPiece [c]
  | newline {nl} : IsNewline nl → IsLiteralPiece nl

/-- Lines between triple quotes: pieces, and quotes of which no three stand together. -/
inductive IsLines (q : Char) (isPiece : List Char → Prop) : List Char → Prop where
  | nil : IsLines q isPiece []
  | piece {p cs} : isPiece p → IsLines q isPiece cs → IsLines q isPiece (p ++ cs)
  | quote {cs} : cs.head? ≠ some q → IsLines q isPiece cs → IsLines q isPiece (q :: cs)
  | quotes {cs} : cs.head? ≠ some q → IsLines q isPiece cs → IsLines q isPiece (q :: q :: cs)

/-- A string in any of the four notations. -/
inductive IsString : List Char → Prop where
  | basic {s cs} : Quotes s cs → IsString cs
  | literal {s cs} : QuotesLiterally s cs → IsString cs
  | basicLines {body} : IsLines '"' IsBasicPiece body →
      IsString ('"' :: '"' :: '"' :: (body ++ ['"', '"', '"']))
  | literalLines {body} : IsLines '\'' IsLiteralPiece body →
      IsString ('\'' :: '\'' :: '\'' :: (body ++ ['\'', '\'', '\'']))

/-! ### Escapes -/

theorem hexValue?_of_isHexDigit {c : Char} {n : Nat} (h : Json.IsHexDigit c n) :
    hexValue? c = some n := by
  have hall : ∀ n < 16, hexValue? (Json.hexDigit n) = some n ∧
      hexValue? (Json.hexDigit n).toUpper = some n := by
    decide
  obtain ⟨hn, rfl | rfl⟩ := h
  · exact (hall n hn).1
  · exact (hall n hn).2

theorem WritesHex.foldlM_eq {n : Nat} {ds : List Char} (h : WritesHex n ds) :
    ds.foldlM (fun n d => (hexValue? d).map (16 * n + ·)) 0 = some n := by
  induction h with
  | nil => rfl
  | concat _ hd ih =>
    rw [List.foldlM_append, ih]
    simp [hexValue?_of_isHexDigit hd]

theorem charOfHex?_of_writesHex {c : Char} {ds : List Char} (h : WritesHex c.toNat ds) :
    charOfHex? ds = some c := by
  have hvalid : c.toNat.isValidChar := c.valid
  simp only [charOfHex?, h.foldlM_eq, bind, Option.bind, hvalid, dite_true, Option.some.injEq]
  apply Char.ext
  exact UInt32.ofNat_toNat

theorem exists_four {ds : List Char} (h : ds.length = 4) : ∃ a b c d, ds = [a, b, c, d] := by
  match ds, h with
  | [a, b, c, d], _ => exact ⟨a, b, c, d, rfl⟩

theorem exists_eight {ds : List Char} (h : ds.length = 8) :
    ∃ a b c d e f g i, ds = [a, b, c, d, e, f, g, i] := by
  match ds, h with
  | [a, b, c, d, e, f, g, i], _ => exact ⟨a, b, c, d, e, f, g, i, rfl⟩

theorem escape?_letter {c e : Char} (h : (c, e) ∈ letterEscapes) (rest : List Char) :
    escape? (e :: rest) = some (c, rest) := by
  revert h
  simp only [letterEscapes, List.mem_cons, Prod.mk.injEq, List.not_mem_nil, or_false]
  rintro (⟨rfl, rfl⟩ | ⟨rfl, rfl⟩ | ⟨rfl, rfl⟩ | ⟨rfl, rfl⟩ | ⟨rfl, rfl⟩ | ⟨rfl, rfl⟩ |
    ⟨rfl, rfl⟩) <;> rfl

/-- An escape is read to its end, and no line end stands behind its backslash. -/
theorem Escapes.exists_cons {c : Char} {e : List Char} (h : Escapes c e) :
    ∃ tail, e = '\\' :: tail ∧ ∀ rest, escape? (tail ++ rest) = some (c, rest) ∧
      newline? (skipBlanks (tail ++ rest)) = none := by
  cases h with
  | @letter e he =>
    refine ⟨[e], rfl, fun rest => ⟨escape?_letter he rest, ?_⟩⟩
    have hall : ∀ p ∈ letterEscapes, isBlank p.2 = false ∧ p.2 ≠ '\n' ∧ p.2 ≠ '\r' := by decide
    obtain ⟨hblank, hfeed, hreturn⟩ := hall _ he
    rw [List.singleton_append, skipBlanks, List.dropWhile_cons_of_neg (by simpa using hblank)]
    unfold newline?
    split <;> simp_all
  | four hds hlen =>
    obtain ⟨a, b, c, d, rfl⟩ := exists_four hlen
    refine ⟨_, rfl, fun rest => ⟨?_, rfl⟩⟩
    simp only [List.cons_append, List.nil_append, escape?, charOfHex?_of_writesHex hds,
      Option.map_some]
  | eight hds hlen =>
    obtain ⟨a, b, c, d, e, f, g, i, rfl⟩ := exists_eight hlen
    refine ⟨_, rfl, fun rest => ⟨?_, rfl⟩⟩
    simp only [List.cons_append, List.nil_append, escape?, charOfHex?_of_writesHex hds,
      Option.map_some]

/-! ### Strings on one line -/

theorem basic?_escape {c : Char} {cs after : List Char} (h : escape? cs = some (c, after)) :
    basic? ('\\' :: cs) = (basic? after).map fun (s, rest) => (c :: s, rest) := by
  rw [basic?.eq_3]
  split
  next heq =>
    cases h.symm.trans heq
    rfl
  next heq => cases h.symm.trans heq

/-- A string in double quotes is taken through the closing one. -/
theorem basic?_append {cs body : List Char} (h : Spells cs body) (rest : List Char) :
    basic? (body ++ '"' :: rest) = some (cs, rest) := by
  induction h with
  | nil => rw [List.nil_append, basic?]
  | plain hplain hquote hslash _ ih =>
    rw [List.cons_append, basic?.eq_4 _ _ (by simpa using hquote) (by simpa using hslash),
      if_pos hplain, ih]
    rfl
  | escape he _ ih =>
    obtain ⟨tail, rfl, htail⟩ := he.exists_cons
    rw [List.append_assoc, List.cons_append, basic?_escape (htail _).1, ih]
    rfl

/-- Characters that need no escape may stand for themselves. -/
theorem Spells.of_forall {cs : List Char} (h : ∀ c ∈ cs, isPlain c = true ∧ c ≠ '"' ∧ c ≠ '\\') :
    Spells cs cs := by
  induction cs with
  | nil => exact .nil
  | cons c cs ih =>
    obtain ⟨⟨hplain, hquote, hslash⟩, hcs⟩ := List.forall_mem_cons.mp h
    exact .plain hplain hquote hslash (ih hcs)

theorem literal?_append {cs : List Char} (h : ∀ c ∈ cs, isPlain c = true ∧ c ≠ '\'')
    (rest : List Char) : literal? (cs ++ '\'' :: rest) = some (cs, rest) := by
  induction cs with
  | nil => rfl
  | cons c cs ih =>
    obtain ⟨⟨hplain, hquote⟩, hcs⟩ := List.forall_mem_cons.mp h
    rw [List.cons_append, literal?.eq_3 _ _ (by simpa using hquote), if_pos hplain, ih hcs]
    rfl

/-! ### Lines between triple quotes -/

section

variable {q : Char} {cs rest : List Char}

theorem closing?_three (hrest : rest.head? ≠ some q) :
    closing? q (q :: q :: q :: rest) = some ([], rest) := by
  match rest with
  | [] => simp [closing?]
  | [d] =>
    have hd : d ≠ q := by simpa using hrest
    simp [closing?, hd]
  | d :: e :: rest =>
    have hd : d ≠ q := by simpa using hrest
    simp [closing?, hd]

theorem closing?_four (hrest : rest.head? ≠ some q) :
    closing? q (q :: q :: q :: q :: rest) = some ([q], rest) := by
  match rest with
  | [] => simp [closing?]
  | e :: rest =>
    have he : e ≠ q := by simpa using hrest
    simp [closing?, he]

theorem closing?_five : closing? q (q :: q :: q :: q :: q :: rest) = some ([q, q], rest) := by
  simp [closing?]

theorem closing?_eq_none (h : ¬[q, q, q] <+: cs) : closing? q cs = none := by
  unfold closing?
  split
  next a b c d e rest =>
    rw [if_neg]
    rintro ⟨rfl, rfl, rfl⟩
    exact h (by simp)
  next a b c d =>
    rw [if_neg]
    rintro ⟨rfl, rfl, rfl⟩
    exact h (by simp)
  next a b c =>
    rw [if_neg]
    rintro ⟨rfl, rfl, rfl⟩
    exact h (by simp)
  next => rfl

theorem closing?_eq_none_of_ne {c : Char} (h : c ≠ q) : closing? q (c :: cs) = none := by
  apply closing?_eq_none
  rw [List.cons_prefix_cons]
  exact fun ⟨heq, _⟩ => h heq.symm

theorem closing?_cons_eq_none {c d : Char} (h : d ≠ q) : closing? q (c :: d :: cs) = none := by
  apply closing?_eq_none
  rw [List.cons_prefix_cons, List.cons_prefix_cons]
  rintro ⟨_, heq, _⟩
  exact h heq.symm

/-- A reader takes a text up to `rest`. -/
def Ends (read : List Char → Option (List Char × List Char)) (cs rest : List Char) : Prop :=
  ∃ s, read cs = some (s, rest)

/-- A reader that takes pieces and quotes as they come takes lines through their closing quotes. -/
theorem IsLines.ends {isPiece : List Char → Prop}
    {read : List Char → Option (List Char × List Char)}
    (hclosing : ∀ cs found, closing? q cs = some found → read cs = some found)
    (hquote : ∀ cs, closing? q (q :: cs) = none → Ends read cs rest → Ends read (q :: cs) rest)
    (hne : ∀ p, isPiece p → p ≠ [])
    (hpiece : ∀ p cs, isPiece p → IsLines q isPiece cs →
      (∀ cs', IsLines q isPiece cs' → cs'.length ≤ cs.length →
        Ends read (cs' ++ q :: q :: q :: rest) rest) →
      Ends read (p ++ (cs ++ q :: q :: q :: rest)) rest)
    (hrest : rest.head? ≠ some q) (h : IsLines q isPiece cs) :
    Ends read (cs ++ q :: q :: q :: rest) rest := by
  -- On the length of the lines: a piece may take blanks of the next lines with it.
  induction hlen : cs.length using Nat.strongRecOn generalizing cs with
  | ind n ih =>
    cases h with
    | nil => exact ⟨_, hclosing _ _ (closing?_three hrest)⟩
    | @piece p cs hp hcs =>
      have hpos := List.length_pos_iff.mpr (hne p hp)
      rw [List.length_append] at hlen
      rw [List.append_assoc]
      exact hpiece p cs hp hcs fun cs' hcs' hle => ih _ (by omega) hcs' rfl
    | @quote cs hhead hcs =>
      rw [List.length_cons] at hlen
      cases cs with
      | nil => exact ⟨_, hclosing _ _ (closing?_four hrest)⟩
      | cons c cs =>
        apply hquote _ (closing?_cons_eq_none (by simpa using hhead))
        exact ih _ (by omega) hcs rfl
    | @quotes cs hhead hcs =>
      rw [List.length_cons, List.length_cons] at hlen
      cases cs with
      | nil => exact ⟨_, hclosing _ _ closing?_five⟩
      | cons c cs =>
        have hc : c ≠ q := by simpa using hhead
        rw [List.cons_append, List.cons_append, List.cons_append]
        apply hquote
        · apply closing?_eq_none
          rw [List.cons_prefix_cons, List.cons_prefix_cons, List.cons_prefix_cons]
          rintro ⟨_, _, heq, _⟩
          exact hc heq.symm
        · apply hquote _ (closing?_cons_eq_none hc)
          exact ih _ (by omega) hcs rfl

end

theorem IsNewline.newline?_eq {nl : List Char} (h : IsNewline nl) (rest : List Char) :
    newline? (nl ++ rest) = some rest := by
  obtain rfl | rfl := h <;> rfl

theorem IsNewline.exists_cons {nl : List Char} (h : IsNewline nl) :
    ∃ c tail, nl = c :: tail ∧ (c = '\n' ∨ c = '\r') := by
  obtain rfl | rfl := h
  · exact ⟨'\n', [], rfl, .inl rfl⟩
  · exact ⟨'\r', ['\n'], rfl, .inr rfl⟩

theorem newline?_eq_none {c : Char} (h : isPlain c = true) (cs : List Char) :
    newline? (c :: cs) = none := by
  unfold newline?
  split
  next heq =>
    rw [(List.cons.inj heq).1] at h
    contradiction
  next heq =>
    rw [(List.cons.inj heq).1] at h
    contradiction
  next => rfl

theorem isBlank_iff {c : Char} : isBlank c = true ↔ c = ' ' ∨ c = '\t' := by
  simp [isBlank]

theorem isBlanks_nil : IsBlanks [] :=
  List.forall_mem_nil _

theorem skipBlanks_append {a : List Char} (h : IsBlanks a) (cs : List Char) :
    skipBlanks (a ++ cs) = skipBlanks cs :=
  List.dropWhile_append_of_pos h

theorem IsNewline.skipBlanks_eq {nl : List Char} (h : IsNewline nl) (cs : List Char) :
    skipBlanks (nl ++ cs) = nl ++ cs := by
  obtain rfl | rfl := h <;> rfl

/-! What the readers of lines do in front of what is not a closing. -/

section

variable {cs after rest : List Char} {c : Char}

theorem basicLines?_closing {found : List Char × List Char} (h : closing? '"' cs = some found) :
    basicLines? cs = some found := by
  rw [basicLines?.eq_def, h]

theorem literalLines?_closing {found : List Char × List Char} (h : closing? '\'' cs = some found) :
    literalLines? cs = some found := by
  rw [literalLines?.eq_def, h]

theorem ends_basicLines?_plain (hclosing : closing? '"' (c :: cs) = none) (hslash : c ≠ '\\')
    (h : isPlain c = true) (hends : Ends basicLines? cs rest) :
    Ends basicLines? (c :: cs) rest := by
  obtain ⟨s, hs⟩ := hends
  refine ⟨c :: s, ?_⟩
  rw [basicLines?.eq_3 _ _ hslash, hclosing]
  dsimp only
  split
  next heq => cases (newline?_eq_none h cs).symm.trans heq
  next =>
    rw [if_pos h, hs]
    rfl

theorem ends_literalLines?_plain (hclosing : closing? '\'' (c :: cs) = none)
    (h : isPlain c = true) (hends : Ends literalLines? cs rest) :
    Ends literalLines? (c :: cs) rest := by
  obtain ⟨s, hs⟩ := hends
  refine ⟨c :: s, ?_⟩
  rw [literalLines?.eq_2, hclosing]
  dsimp only
  split
  next heq => cases (newline?_eq_none h cs).symm.trans heq
  next =>
    rw [if_pos h, hs]
    rfl

theorem ends_basicLines?_newline {nl : List Char} (h : IsNewline nl)
    (hends : Ends basicLines? cs rest) : Ends basicLines? (nl ++ cs) rest := by
  obtain ⟨s, hs⟩ := hends
  refine ⟨'\n' :: s, ?_⟩
  have hnewline := h.newline?_eq cs
  obtain ⟨c, tail, rfl, hc⟩ := h.exists_cons
  have hne : c ≠ '"' ∧ c ≠ '\\' := by
    obtain rfl | rfl := hc <;> decide
  rw [List.cons_append] at hnewline ⊢
  rw [basicLines?.eq_3 _ _ hne.2, closing?_eq_none_of_ne hne.1]
  dsimp only
  split
  next heq =>
    cases hnewline.symm.trans heq
    rw [hs]
    rfl
  next heq => cases hnewline.symm.trans heq

theorem ends_literalLines?_newline {nl : List Char} (h : IsNewline nl)
    (hends : Ends literalLines? cs rest) : Ends literalLines? (nl ++ cs) rest := by
  obtain ⟨s, hs⟩ := hends
  refine ⟨'\n' :: s, ?_⟩
  have hnewline := h.newline?_eq cs
  obtain ⟨c, tail, rfl, hc⟩ := h.exists_cons
  have hne : c ≠ '\'' := by
    obtain rfl | rfl := hc <;> decide
  rw [List.cons_append] at hnewline ⊢
  rw [literalLines?.eq_2, closing?_eq_none_of_ne hne]
  dsimp only
  split
  next heq =>
    cases hnewline.symm.trans heq
    rw [hs]
    rfl
  next heq => cases hnewline.symm.trans heq

theorem ends_basicLines?_escape {e : List Char} (h : Escapes c e)
    (hends : Ends basicLines? cs rest) : Ends basicLines? (e ++ cs) rest := by
  obtain ⟨s, hs⟩ := hends
  obtain ⟨tail, rfl, htail⟩ := h.exists_cons
  obtain ⟨hescape, hnewline⟩ := htail cs
  refine ⟨c :: s, ?_⟩
  rw [List.cons_append, basicLines?.eq_2, closing?_eq_none_of_ne (by decide)]
  dsimp only
  split
  next heq => cases hnewline.symm.trans heq
  next =>
    split
    next heq =>
      cases hescape.symm.trans heq
      rw [hs]
      rfl
    next heq => cases hescape.symm.trans heq

theorem ends_basicLines?_join {a nl : List Char} (ha : IsBlanks a) (h : IsNewline nl)
    (hends : Ends basicLines? (skipBlankLines cs) rest) :
    Ends basicLines? ('\\' :: (a ++ nl) ++ cs) rest := by
  obtain ⟨s, hs⟩ := hends
  have hnewline : newline? (skipBlanks (a ++ nl ++ cs)) = some cs := by
    rw [List.append_assoc, skipBlanks_append ha, h.skipBlanks_eq, h.newline?_eq]
  refine ⟨s, ?_⟩
  rw [List.cons_append, basicLines?.eq_2, closing?_eq_none_of_ne (by decide)]
  dsimp only
  split
  next heq =>
    cases hnewline.symm.trans heq
    exact hs
  next heq => cases hnewline.symm.trans heq

end

theorem IsBasicPiece.ne_nil {p : List Char} (h : IsBasicPiece p) : p ≠ [] := by
  cases h with
  | plain | join => exact List.cons_ne_nil _ _
  | newline h =>
    obtain ⟨c, tail, rfl, _⟩ := h.exists_cons
    exact List.cons_ne_nil _ _
  | escape h =>
    obtain ⟨tail, rfl, _⟩ := h.exists_cons
    exact List.cons_ne_nil _ _

theorem IsLiteralPiece.ne_nil {p : List Char} (h : IsLiteralPiece p) : p ≠ [] := by
  cases h with
  | plain => exact List.cons_ne_nil _ _
  | newline h =>
    obtain ⟨c, tail, rfl, _⟩ := h.exists_cons
    exact List.cons_ne_nil _ _

theorem skipBlankLines_blank {c : Char} (h : isBlank c = true) (cs : List Char) :
    skipBlankLines (c :: cs) = skipBlankLines cs := by
  have hreturn : c ≠ '\r' := by
    rintro rfl
    contradiction
  rw [skipBlankLines.eq_3 _ _ (by simp [hreturn]), if_pos (by simp [h])]

theorem skipBlankLines_newline {nl : List Char} (h : IsNewline nl) (cs : List Char) :
    skipBlankLines (nl ++ cs) = skipBlankLines cs := by
  obtain rfl | rfl := h <;> rfl

theorem skipBlankLines_eq {c : Char} (h : isPlain c = true) (hblank : ¬isBlank c = true)
    (cs : List Char) : skipBlankLines (c :: cs) = c :: cs := by
  have hfeed : c ≠ '\n' := by
    rintro rfl
    contradiction
  have hreturn : c ≠ '\r' := by
    rintro rfl
    contradiction
  rw [skipBlankLines.eq_3 _ _ (by simp [hreturn]), if_neg (by simp [hblank, hfeed])]

/-- Without the blanks and line ends in front, lines are still lines. -/
theorem IsLines.exists_skipBlankLines {cs : List Char} (h : IsLines '"' IsBasicPiece cs)
    (rest : List Char) : ∃ cs', IsLines '"' IsBasicPiece cs' ∧ cs'.length ≤ cs.length ∧
      skipBlankLines (cs ++ '"' :: rest) = cs' ++ '"' :: rest := by
  induction h with
  | nil => exact ⟨[], .nil, Nat.le_refl _, rfl⟩
  | @piece p cs hp hcs ih =>
    obtain ⟨cs', hcs', hle, heq⟩ := ih
    have hle' : cs'.length ≤ (p ++ cs).length := by
      rw [List.length_append]
      omega
    cases hp with
    | @plain c hplain hquote hslash =>
      by_cases hblank : isBlank c = true
      · exact ⟨cs', hcs', hle', (skipBlankLines_blank hblank _).trans heq⟩
      · exact ⟨_, .piece (.plain hplain hquote hslash) hcs, Nat.le_refl _,
          skipBlankLines_eq hplain hblank _⟩
    | newline hnl =>
      refine ⟨cs', hcs', hle', ?_⟩
      rw [List.append_assoc, skipBlankLines_newline hnl, heq]
    | escape he =>
      refine ⟨_, .piece (.escape he) hcs, Nat.le_refl _, ?_⟩
      obtain ⟨tail, rfl, _⟩ := he.exists_cons
      exact skipBlankLines_eq (by decide) (by decide) _
    | join ha hnl =>
      exact ⟨_, .piece (.join ha hnl) hcs, Nat.le_refl _,
        skipBlankLines_eq (by decide) (by decide) _⟩
  | quote hhead hcs =>
    exact ⟨_, .quote hhead hcs, Nat.le_refl _, skipBlankLines_eq (by decide) (by decide) _⟩
  | quotes hhead hcs =>
    exact ⟨_, .quotes hhead hcs, Nat.le_refl _, skipBlankLines_eq (by decide) (by decide) _⟩

section

variable {cs rest : List Char}

theorem ends_basicLines? (h : IsLines '"' IsBasicPiece cs) (hrest : rest.head? ≠ some '"') :
    Ends basicLines? (cs ++ '"' :: '"' :: '"' :: rest) rest := by
  apply h.ends (fun _ _ => basicLines?_closing) _ (fun _ => IsBasicPiece.ne_nil) _ hrest
  · intro cs hclosing hends
    exact ends_basicLines?_plain hclosing (by decide) (by decide) hends
  · intro p cs hp hcs ih
    have hends := ih cs hcs (Nat.le_refl _)
    cases hp with
    | plain hplain hquote hslash =>
      exact ends_basicLines?_plain (closing?_eq_none_of_ne hquote) hslash hplain hends
    | newline hnl => exact ends_basicLines?_newline hnl hends
    | escape he => exact ends_basicLines?_escape he hends
    | join ha hnl =>
      obtain ⟨cs', hcs', hle, heq⟩ := hcs.exists_skipBlankLines ('"' :: '"' :: rest)
      apply ends_basicLines?_join ha hnl
      rw [heq]
      exact ih cs' hcs' hle

theorem ends_literalLines? (h : IsLines '\'' IsLiteralPiece cs) (hrest : rest.head? ≠ some '\'') :
    Ends literalLines? (cs ++ '\'' :: '\'' :: '\'' :: rest) rest := by
  apply h.ends (fun _ _ => literalLines?_closing) _ (fun _ => IsLiteralPiece.ne_nil) _ hrest
  · intro cs hclosing hends
    exact ends_literalLines?_plain hclosing (by decide) hends
  · intro p cs hp hcs ih
    have hends := ih cs hcs (Nat.le_refl _)
    cases hp with
    | plain hplain hquote =>
      exact ends_literalLines?_plain (closing?_eq_none_of_ne hquote) hplain hends
    | newline hnl => exact ends_literalLines?_newline hnl hends

/-- A line end behind the opening quotes is one of the line ends that lines may have. -/
theorem IsLines.exists_skipFirstNewline {q : Char} {isPiece : List Char → Prop}
    (h : IsLines q isPiece cs)
    (hq : isPlain q = true)
    (hpiece : ∀ p, isPiece p → IsNewline p ∨ ∃ c tail, p = c :: tail ∧ isPlain c = true)
    (rest : List Char) :
    ∃ cs', IsLines q isPiece cs' ∧ skipFirstNewline (cs ++ q :: rest) = cs' ++ q :: rest := by
  have hplain {c : Char} (tail : List Char) (hc : isPlain c = true) :
      skipFirstNewline (c :: tail) = c :: tail := by
    rw [skipFirstNewline, newline?_eq_none hc]
    rfl
  cases h with
  | nil => exact ⟨[], .nil, hplain _ hq⟩
  | @piece p cs hp hcs =>
    obtain hnl | ⟨c, tail, rfl, hc⟩ := hpiece p hp
    · refine ⟨cs, hcs, ?_⟩
      rw [List.append_assoc, skipFirstNewline, hnl.newline?_eq]
      rfl
    · exact ⟨_, .piece hp hcs, hplain _ hc⟩
  | quote hhead hcs => exact ⟨_, .quote hhead hcs, hplain _ hq⟩
  | quotes hhead hcs => exact ⟨_, .quotes hhead hcs, hplain _ hq⟩

theorem IsBasicPiece.newline_or {p : List Char} (h : IsBasicPiece p) :
    IsNewline p ∨ ∃ c tail, p = c :: tail ∧ isPlain c = true := by
  cases h with
  | plain hplain => exact .inr ⟨_, _, rfl, hplain⟩
  | newline h => exact .inl h
  | escape h =>
    obtain ⟨tail, rfl, _⟩ := h.exists_cons
    exact .inr ⟨_, _, rfl, by decide⟩
  | join => exact .inr ⟨_, _, rfl, by decide⟩

theorem IsLiteralPiece.newline_or {p : List Char} (h : IsLiteralPiece p) :
    IsNewline p ∨ ∃ c tail, p = c :: tail ∧ isPlain c = true := by
  cases h with
  | plain hplain => exact .inr ⟨_, _, rfl, hplain⟩
  | newline h => exact .inl h

/-! ### Strings in any notation -/

theorem string?_basic (h : ¬['"', '"'] <+: cs) : string? ('"' :: cs) = basic? cs := by
  apply string?.eq_3
  rintro tail rfl
  exact h (by simp)

theorem string?_literal (h : ¬['\'', '\''] <+: cs) : string? ('\'' :: cs) = literal? cs := by
  apply string?.eq_4
  rintro tail rfl
  exact h (by simp)

theorem string?_quotes {s : String} (h : Quotes s cs) (hrest : rest.head? ≠ some '"') :
    string? (cs ++ rest) = some (s.toList, rest) := by
  obtain ⟨body, hbody, rfl⟩ := h
  generalize s.toList = chars at hbody ⊢
  have hopen : ¬['"', '"'] <+: body ++ '"' :: rest := by
    cases hbody with
    | nil =>
      rintro ⟨tail, htail⟩
      simp [← (List.cons.inj htail).2] at hrest
    | plain _ hquote =>
      rw [List.cons_append, List.cons_prefix_cons]
      exact fun ⟨heq, _⟩ => hquote heq.symm
    | escape he =>
      obtain ⟨tail, rfl, _⟩ := he.exists_cons
      simp
  have hcs : '"' :: (body ++ ['"']) ++ rest = '"' :: (body ++ '"' :: rest) := by simp
  rw [hcs, string?_basic hopen, basic?_append hbody]

theorem string?_quotesLiterally {s : String} (h : QuotesLiterally s cs)
    (hrest : rest.head? ≠ some '\'') : string? (cs ++ rest) = some (s.toList, rest) := by
  obtain ⟨hplain, rfl⟩ := h
  have hopen : ¬['\'', '\''] <+: s.toList ++ '\'' :: rest := by
    cases hs : s.toList with
    | nil =>
      rintro ⟨tail, htail⟩
      simp [← (List.cons.inj htail).2] at hrest
    | cons c body =>
      rw [hs] at hplain
      rw [List.cons_append, List.cons_prefix_cons]
      exact fun ⟨heq, _⟩ => (hplain c List.mem_cons_self).2 heq.symm
  have hcs : '\'' :: (s.toList ++ ['\'']) ++ rest = '\'' :: (s.toList ++ '\'' :: rest) := by simp
  rw [hcs, string?_literal hopen, literal?_append hplain]

/-- Any string is taken to its end, if no quote stands behind it. -/
theorem IsString.ends (h : IsString cs) (hrest : rest.head? ≠ some '"' ∧ rest.head? ≠ some '\'') :
    Ends string? (cs ++ rest) rest := by
  cases h with
  | basic h => exact ⟨_, string?_quotes h hrest.1⟩
  | literal h => exact ⟨_, string?_quotesLiterally h hrest.2⟩
  | @basicLines body h =>
    obtain ⟨cs', hcs', heq⟩ := h.exists_skipFirstNewline (by decide)
      (fun _ => IsBasicPiece.newline_or) ('"' :: '"' :: rest)
    obtain ⟨s, hs⟩ := ends_basicLines? hcs' hrest.1
    refine ⟨s, ?_⟩
    rw [← heq] at hs
    simpa [string?] using hs
  | @literalLines body h =>
    obtain ⟨cs', hcs', heq⟩ := h.exists_skipFirstNewline (by decide)
      (fun _ => IsLiteralPiece.newline_or) ('\'' :: '\'' :: rest)
    obtain ⟨s, hs⟩ := ends_literalLines? hcs' hrest.2
    refine ⟨s, ?_⟩
    rw [← heq] at hs
    simpa [string?] using hs

end

end Sidecar.Toml
