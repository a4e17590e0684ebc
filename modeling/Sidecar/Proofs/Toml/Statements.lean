import Mathlib
import Sidecar.Proofs.Toml.Values

/-! The lines of a TOML document by their grammar. Each holds a clause at most, and the reader takes
the clauses in their order. -/

namespace Sidecar.Toml

/-- What a line says, with the whole path it says it of. -/
inductive Clause (α : Type) where
  /-- `[path]`. -/
  | header (path : List String)
  /-- `[[path]]`. -/
  | element (path : List String)
  /-- `path = value`. -/
  | assignment (path : List String) (value : α)

/-- A clause as it is written. Values are told by their texts. -/
inductive IsClause (bounded : Prop) : Clause (List Char) → List Char → Prop where
  | header {p key a b} : IsKey p key → IsBlanks a → IsBlanks b →
      (bounded → p.length < depthLimit) →
      IsClause bounded (.header p) ('[' :: (a ++ (key ++ (b ++ [']']))))
  | element {p key a b} : IsKey p key → IsBlanks a → IsBlanks b →
      (bounded → p.length < depthLimit) →
      IsClause bounded (.element p) ('[' :: '[' :: (a ++ (key ++ (b ++ [']', ']']))))
  | assignment {p v cs depth} : IsPair p v cs → IsValue bounded depth v →
      (bounded → p.length < depthLimit ∧ depth < depthLimit) →
      IsClause bounded (.assignment p v) cs

/-- A comment, which may be left out. -/
inductive IsComment : List Char → Prop where
  | none : IsComment []
  | some {text} : (∀ c ∈ text, isPlain c = true) → IsComment ('#' :: text)

/-- A line without its end. -/
inductive IsLine (bounded : Prop) : List (Clause (List Char)) → List Char → Prop where
  | blank {a c} : IsBlanks a → IsComment c → IsLine bounded [] (a ++ c)
  | clause {a x cs b c} : IsBlanks a → IsClause bounded x cs → IsBlanks b → IsComment c →
      IsLine bounded [x] (a ++ (cs ++ (b ++ c)))

inductive AreLines (bounded : Prop) : List (Clause (List Char)) → List Char → Prop where
  | last {xs line} : IsLine bounded xs line → AreLines bounded xs line
  | more {xs line nl ys cs} : IsLine bounded xs line → IsNewline nl → AreLines bounded ys cs →
      AreLines bounded (xs ++ ys) (line ++ (nl ++ cs))

/-- The end of a line, or of the whole text, and what is left behind it. -/
inductive EndsLine : List Char → List Char → Prop where
  | text : EndsLine [] []
  | newline {nl cs} : IsNewline nl → EndsLine (nl ++ cs) cs

/-- A node that has been read for the text of a value: a reader of the text can give nothing
else. -/
def IsReadAs (v : List Char) (n : Node) : Prop :=
  n.IsValue ∧ ∀ known, Reads (value? (depthLimit - 1)) v known → known n

inductive IsReadClause : Clause (List Char) → Statement → Prop where
  | header {path key} : IsReadClause (.header (path ++ [key])) (.header path key)
  | element {path key} : IsReadClause (.element (path ++ [key])) (.element path key)
  | assignment {path key v n} : IsReadAs v n →
      IsReadClause (.assignment (path ++ [key]) v) (.assignment path key n)

section

variable {v cs line nl a b c rest : List Char} {x : Clause (List Char)}
  {xs : List (Clause (List Char))} {p : List String} {depth : Nat}

theorem IsValue.exists_isReadAs (h : IsValue True depth v) (hdepth : depth < depthLimit)
    (hrest : Stops rest) :
    ∃ n, IsReadAs v n ∧ value? (depthLimit - 1) (v ++ rest) = some (n, rest) := by
  have hreads := h.reads (Nat.le_pred_of_lt hdepth)
  obtain ⟨n, hn, hread⟩ := hreads.2 rest hrest
  refine ⟨n, ⟨hn, fun known hknown => ?_⟩, hread⟩
  obtain ⟨m, hm, hread'⟩ := hknown.2 rest hrest
  obtain rfl : n = m := (Prod.mk.inj (Option.some.inj (hread.symm.trans hread'))).1
  exact hm

theorem IsPair.exists_cons (h : IsPair p v cs) :
    ∃ d tail, cs = d :: tail ∧ d ∉ [' ', '\t', '\x7d', '[', '#', '\n', '\r', '\ufeff'] := by
  obtain ⟨key, a, b, hkey, -, -, rfl⟩ := h
  obtain ⟨d, tail, rfl, hd⟩ := hkey.exists_cons
  exact ⟨d, _, rfl, hd⟩

theorem IsClause.exists_cons {bounded : Prop} (h : IsClause bounded x cs) :
    ∃ d tail, cs = d :: tail ∧ d ∉ [' ', '\t', '#', '\n', '\r', '\ufeff'] := by
  cases h with
  | header | element => exact ⟨_, _, rfl, by decide⟩
  | assignment hpair =>
    obtain ⟨d, tail, rfl, hd⟩ := hpair.exists_cons
    refine ⟨d, tail, rfl, fun hmem => hd ?_⟩
    simp only [List.mem_cons] at hmem ⊢
    tauto

theorem key_not_bracket (h : IsKey p cs) (ha : IsBlanks a) {tail : List Char} :
    a ++ (cs ++ rest) ≠ '[' :: tail := by
  cases a with
  | nil =>
    obtain ⟨d, more, rfl, hd⟩ := h.exists_cons
    exact fun heq => hd ((List.cons.inj heq).1 ▸ by simp)
  | cons c a =>
    intro heq
    have hc := ha c List.mem_cons_self
    rw [(List.cons.inj heq).1] at hc
    contradiction

/-- A clause is taken to its end. -/
theorem statement?_append (h : IsClause True x cs) (hrest : Stops rest) :
    ∃ s, IsReadClause x s ∧ statement? (cs ++ rest) = some (s, rest) := by
  cases h with
  | @header p key a b hkey ha hb hlen =>
    obtain ⟨path, last, rfl⟩ := hkey.exists_concat
    refine ⟨_, .header, ?_⟩
    simp only [List.cons_append, List.append_assoc]
    rw [statement?.eq_2 _ fun _ => key_not_bracket hkey ha,
      key?_append hkey (hlen trivial) ha hb (.inr rfl), Option.bind_eq_bind, Option.bind_some]
    dsimp only
    rw [char?_self]
    rfl
  | @element p key a b hkey ha hb hlen =>
    obtain ⟨path, last, rfl⟩ := hkey.exists_concat
    refine ⟨_, .element, ?_⟩
    simp only [List.cons_append, List.append_assoc, List.nil_append]
    rw [statement?.eq_1, key?_append hkey (hlen trivial) ha hb (.inr rfl), Option.bind_eq_bind,
      Option.bind_some]
    dsimp only
    rw [char?_self, Option.bind_eq_bind, Option.bind_some, char?_self]
    rfl
  | @assignment p v cs depth hpair hvalue hlen =>
    obtain ⟨path, last, rfl⟩ := hpair.exists_concat
    obtain ⟨hlen, hdepth⟩ := hlen trivial
    obtain ⟨n, hn, hread⟩ := hvalue.exists_isReadAs hdepth hrest
    have hstarts := (hvalue.reads (Nat.le_refl depth)).1
    obtain ⟨after, hkey, hafter⟩ :=
      pair_append hpair hlen isBlanks_nil hstarts hread
    refine ⟨_, .assignment hn, ?_⟩
    have hbracket (tail : List Char) : cs ++ rest ≠ '[' :: tail := by
      obtain ⟨d, more, rfl, hd⟩ := hpair.exists_cons
      exact fun heq => hd ((List.cons.inj heq).1 ▸ by simp)
    rw [List.nil_append] at hkey
    rw [statement?.eq_3 _ (fun _ => hbracket _) hbracket, hkey, Option.bind_eq_bind,
      Option.bind_some]
    dsimp only
    rw [char?_self, Option.bind_eq_bind, Option.bind_some, hafter]
    rfl

/-! ### Lines -/

theorem stops_nil : Stops [] := by
  intro c hc
  contradiction

theorem IsNewline.stops (h : IsNewline nl) (cs : List Char) : Stops (nl ++ cs) := by
  obtain rfl | rfl := h
  · exact stops_cons (by simp) _
  · exact stops_cons (by simp) _

theorem IsComment.stops (h : IsComment c) (hrest : Stops rest) : Stops (c ++ rest) := by
  cases h with
  | none => exact hrest
  | some => exact stops_cons (by simp) _

theorem EndsLine.stops (h : EndsLine cs rest) : Stops cs := by
  cases h with
  | text => exact stops_nil
  | newline hnl => exact hnl.stops _

theorem EndsLine.length_le (h : EndsLine cs rest) : rest.length ≤ cs.length := by
  cases h with
  | text => exact Nat.le_refl _
  | newline =>
    rw [List.length_append]
    exact Nat.le_add_left _ _

theorem lineEnd?_append (ha : IsBlanks a) (hc : IsComment c) (h : EndsLine cs rest) :
    lineEnd? (a ++ (c ++ cs)) = some rest := by
  have hskip : skipComment (skipBlanks (c ++ cs)) = cs := by
    cases hc with
    | none =>
      cases h with
      | text => rfl
      | newline hnl => obtain rfl | rfl := hnl <;> rfl
    | @some text htext =>
      have hdrop : cs.dropWhile isPlain = cs := by
        cases h with
        | text => rfl
        | newline hnl => obtain rfl | rfl := hnl <;> rfl
      exact (List.dropWhile_append_of_pos htext).trans hdrop
  rw [lineEnd?, skipBlanks_append ha, hskip]
  cases h with
  | text => rfl
  | newline hnl => obtain rfl | rfl := hnl <;> rfl

theorem lines_newline (ha : IsBlanks a) (hnl : IsNewline nl) (cs : List Char) (fuel : Nat) :
    statements?.lines (fuel + 1) (a ++ (nl ++ cs)) = statements?.lines fuel cs := by
  rw [statements?.lines.eq_2, skipBlanks_append ha]
  obtain rfl | rfl := hnl <;> rfl

theorem lines_comment (ha : IsBlanks a) (cs : List Char) (fuel : Nat) :
    statements?.lines (fuel + 1) (a ++ '#' :: cs) =
      lineEnd? ('#' :: cs) >>= statements?.lines fuel := by
  rw [statements?.lines.eq_2, skipBlanks_append ha]
  rfl

theorem exists_lines_clause (ha : IsBlanks a) (h : IsClause True x cs) (hrest : Stops rest) :
    ∃ s, IsReadClause x s ∧ ∀ fuel, statements?.lines (fuel + 1) (a ++ (cs ++ rest)) =
      lineEnd? rest >>= fun rest => (statements?.lines fuel rest).map (s :: ·) := by
  obtain ⟨s, hs, hread⟩ := statement?_append h hrest
  refine ⟨s, hs, fun fuel => ?_⟩
  obtain ⟨d, tail, rfl, hd⟩ := h.exists_cons
  have hblank : ¬isBlank d = true := by
    intro hblank
    apply hd
    obtain rfl | rfl := isBlank_iff.mp hblank <;> simp
  rw [statements?.lines.eq_2, skipBlanks_append ha, List.cons_append, skipBlanks,
    List.dropWhile_cons_of_neg hblank]
  rw [List.cons_append] at hread
  split
  next heq => contradiction
  next heq => exact absurd (by simp [(List.cons.inj heq).1]) hd
  next heq => exact absurd (by simp [(List.cons.inj heq).1]) hd
  next heq => exact absurd (by simp [(List.cons.inj heq).1]) hd
  next =>
    rw [hread, Option.bind_eq_bind, Option.bind_some]
    simp only [bind, Option.map_eq_bind]
    rfl

theorem lines_blank (ha : IsBlanks a) (fuel : Nat) :
    statements?.lines (fuel + 1) a = some [] := by
  have hskip : skipBlanks a = [] := List.dropWhile_eq_nil_iff.mpr ha
  rw [statements?.lines.eq_2, hskip]

theorem lines_nil (fuel : Nat) : statements?.lines (fuel + 1) [] = some [] :=
  rfl

theorem AreLines.cons {bounded : Prop} (h : IsLine bounded [x] line)
    (hlines : AreLines bounded xs cs) :
    AreLines bounded (x :: xs) (line ++ '\n' :: cs) :=
  .more h (.inl rfl) hlines

theorem areLines_nil (bounded : Prop) : AreLines bounded [] [] :=
  .last (.blank isBlanks_nil .none)

/-- What a line says is read, and then what the lines behind it say. -/
theorem lines_line (h : IsLine True xs line) (hend : EndsLine cs rest) :
    ∃ ss, List.Forall₂ IsReadClause xs ss ∧ ∀ more,
      (∀ fuel, rest.length < fuel → statements?.lines fuel rest = some more) →
      ∀ fuel, (line ++ cs).length < fuel →
        statements?.lines fuel (line ++ cs) = some (ss ++ more) := by
  have hshorter : rest.length ≤ cs.length := hend.length_le
  cases h with
  | @blank a c ha hc =>
    refine ⟨[], .nil, fun more hmore fuel hfuel => ?_⟩
    obtain ⟨fuel, rfl⟩ := Nat.exists_eq_add_one_of_ne_zero (show fuel ≠ 0 by omega)
    rw [List.nil_append]
    cases hc with
    | none =>
      rw [List.append_nil] at hfuel ⊢
      cases hend with
      | text =>
        rw [List.append_nil, lines_blank ha, ← hmore 1 Nat.one_pos, lines_nil]
      | newline hnl =>
        rw [lines_newline ha hnl, hmore]
        obtain ⟨d, tail, rfl, -⟩ := hnl.exists_cons
        simp only [List.length_append, List.length_cons] at hfuel
        omega
    | @some text htext =>
      have hline := lineEnd?_append isBlanks_nil (.some htext) hend
      simp only [List.append_assoc, List.cons_append, List.length_append, List.length_cons,
        List.nil_append] at hfuel hline ⊢
      rw [lines_comment ha, hline, Option.bind_eq_bind, Option.bind_some, hmore _ (by omega)]
  | @clause a x line b c ha hx hb hc =>
    have hstop : Stops (b ++ (c ++ cs)) := hb.stops (hc.stops hend.stops)
    obtain ⟨s, hs⟩ := exists_lines_clause ha hx hstop
    refine ⟨[s], .cons hs.1 .nil, fun more hmore fuel hfuel => ?_⟩
    obtain ⟨fuel, rfl⟩ := Nat.exists_eq_add_one_of_ne_zero (show fuel ≠ 0 by omega)
    obtain ⟨d, tail, rfl, -⟩ := hx.exists_cons
    simp only [List.append_assoc, List.cons_append, List.length_append, List.length_cons]
      at hfuel hs ⊢
    rw [hs.2, lineEnd?_append hb hc hend, Option.bind_eq_bind, Option.bind_some, hmore _ (by omega)]
    rfl

/-- The lines of a document are read for what they say. -/
theorem exists_statements? (h : AreLines True xs cs) :
    ∃ ss, List.Forall₂ IsReadClause xs ss ∧ statements? cs = some ss := by
  have hlines : ∃ ss, List.Forall₂ IsReadClause xs ss ∧
      ∀ fuel, cs.length < fuel → statements?.lines fuel cs = some ss := by
    induction h with
    | last hline =>
      obtain ⟨ss, hss, hread⟩ := lines_line hline .text
      refine ⟨ss, hss, fun fuel hfuel => ?_⟩
      have hnil (fuel : Nat) (hfuel : 0 < fuel) : statements?.lines fuel [] = some [] := by
        obtain ⟨fuel, rfl⟩ := Nat.exists_eq_add_one_of_ne_zero hfuel.ne'
        rfl
      have := hread [] hnil fuel (by rwa [List.append_nil])
      rwa [List.append_nil, List.append_nil] at this
    | more hline hnl _ ih =>
      obtain ⟨ss, hss, hread⟩ := lines_line hline (.newline hnl)
      obtain ⟨more, hmore, hlines⟩ := ih
      exact ⟨ss ++ more, List.rel_append hss hmore, hread more hlines⟩
  obtain ⟨ss, hss, hread⟩ := hlines
  exact ⟨ss, hss, hread _ (Nat.lt_succ_self _)⟩

/-- No line starts with a byte order mark. -/
theorem IsLine.head?_ne {bounded : Prop} (h : IsLine bounded xs line)
    (hrest : rest.head? ≠ some '\ufeff') : (line ++ rest).head? ≠ some '\ufeff' := by
  have hblanks {a cs : List Char} (ha : IsBlanks a) (hcs : cs.head? ≠ some '\ufeff') :
      (a ++ cs).head? ≠ some '\ufeff' := by
    cases a with
    | nil => exact hcs
    | cons d a =>
      intro heq
      have hd := ha d List.mem_cons_self
      rw [Option.some.inj heq] at hd
      contradiction
  cases h with
  | blank ha hc =>
    rw [List.append_assoc]
    apply hblanks ha
    cases hc with
    | none => exact hrest
    | some => simp
  | clause ha hx =>
    rw [List.append_assoc]
    apply hblanks ha
    obtain ⟨d, tail, rfl, hd⟩ := hx.exists_cons
    exact fun heq => hd (by simp [Option.some.inj heq])

theorem AreLines.head?_ne {bounded : Prop} (h : AreLines bounded xs cs) :
    cs.head? ≠ some '\ufeff' := by
  cases h with
  | last hline => simpa using hline.head?_ne (show [].head? ≠ some '\ufeff' by simp)
  | more hline hnl =>
    apply hline.head?_ne
    obtain rfl | rfl := hnl <;> simp

end

end Sidecar.Toml
