import Mathlib
import Sidecar.Proofs.Toml.Strings

/-! Keys of TOML by their grammar: names between dots. The reader takes a key up to the mark behind
it and gives its names, as long as there are not too many of them. -/

namespace Sidecar.Toml

/-- One name of a key, bare or in quotes. -/
inductive IsName (k : String) : List Char → Prop where
  | bare {cs} : k.toList = cs → cs ≠ [] → (∀ c ∈ cs, isBareKeyChar c = true) → IsName k cs
  | basic {cs} : Quotes k cs → IsName k cs
  | literal {cs} : QuotesLiterally k cs → IsName k cs

/-- A path, and its names written between dots. -/
inductive IsKey : List String → List Char → Prop where
  | one {k cs} : IsName k cs → IsKey [k] cs
  | dot {k cs a b p more} : IsName k cs → IsBlanks a → IsBlanks b → IsKey p more →
      IsKey (k :: p) (cs ++ (a ++ '.' :: (b ++ more)))

/-- What stands behind a name and blanks. -/
def keyMarks : List Char :=
  ['.', '=', ']']

section

variable {k : String} {p : List String} {cs a b rest : List Char} {m : Char}

theorem skipBlanks_keyMark (ha : IsBlanks a) (hm : m ∈ keyMarks) (rest : List Char) :
    skipBlanks (a ++ m :: rest) = m :: rest := by
  have hall : ∀ m ∈ keyMarks, isBlank m = false := by simp [keyMarks, isBlank]
  rw [skipBlanks_append ha, skipBlanks, List.dropWhile_cons_of_neg (by simp [hall m hm])]

theorem head?_blanks (ha : IsBlanks a) {c : Char}
    (hc : (a ++ m :: rest).head? = some c) : isBlank c = true ∨ c = m := by
  cases a with
  | nil => exact .inr (Option.some.inj hc).symm
  | cons d a => exact .inl (Option.some.inj hc ▸ ha d List.mem_cons_self)

theorem IsName.exists_cons (h : IsName k cs) :
    ∃ c tail, cs = c :: tail ∧ (isBareKeyChar c = true ∨ c = '"' ∨ c = '\'') := by
  cases h with
  | bare _ hne hall =>
    obtain ⟨c, tail, rfl⟩ := List.exists_cons_of_ne_nil hne
    exact ⟨c, tail, rfl, .inl (hall c List.mem_cons_self)⟩
  | basic h => obtain ⟨body, -, rfl⟩ := h; exact ⟨_, _, rfl, .inr (.inl rfl)⟩
  | literal h => exact ⟨_, _, h.2, .inr (.inr rfl)⟩

/-- No name starts with one of these. -/
theorem not_mem_of_nameStart {c : Char} (h : isBareKeyChar c = true ∨ c = '"' ∨ c = '\'') :
    c ∉ [' ', '\t', '\x7d', '[', '#', '\n', '\r', '\ufeff'] := by
  have hall : ∀ c ∈ [' ', '\t', '\x7d', '[', '#', '\n', '\r', '\ufeff'],
      isBareKeyChar c = false ∧ c ≠ '"' ∧ c ≠ '\'' := by
    simp [isBareKeyChar]
  intro hc
  obtain ⟨hbare, hbasic, hliteral⟩ := hall c hc
  rw [hbare] at h
  exact h.elim Bool.false_ne_true (·.elim hbasic hliteral)

theorem IsKey.exists_cons (h : IsKey p cs) :
    ∃ c tail, cs = c :: tail ∧ c ∉ [' ', '\t', '\x7d', '[', '#', '\n', '\r', '\ufeff'] := by
  cases h with
  | one hname =>
    obtain ⟨c, tail, rfl, hc⟩ := hname.exists_cons
    exact ⟨c, tail, rfl, not_mem_of_nameStart hc⟩
  | dot hname =>
    obtain ⟨c, tail, rfl, hc⟩ := hname.exists_cons
    exact ⟨c, _, rfl, not_mem_of_nameStart hc⟩

theorem skipBlanks_key (ha : IsBlanks a) (h : IsKey p cs) (rest : List Char) :
    skipBlanks (a ++ (cs ++ rest)) = cs ++ rest := by
  obtain ⟨c, tail, rfl, hc⟩ := h.exists_cons
  have hblank : ¬isBlank c = true := by
    intro hblank
    apply hc
    obtain rfl | rfl := isBlank_iff.mp hblank <;> simp
  rw [skipBlanks_append ha, skipBlanks, List.cons_append, List.dropWhile_cons_of_neg hblank]

/-- A name is taken up to what no bare name may hold. -/
theorem simpleKey?_append (h : IsName k cs)
    (hrest : ∀ c, rest.head? = some c → isBareKeyChar c = false) :
    simpleKey? (cs ++ rest) = some (k, rest) := by
  cases h with
  | bare hk hne hall =>
    subst hk
    have hstop : rest.takeWhile isBareKeyChar = [] ∧ rest.dropWhile isBareKeyChar = rest := by
      cases rest with
      | nil => exact ⟨rfl, rfl⟩
      | cons c rest =>
        have hc := hrest c rfl
        exact ⟨List.takeWhile_cons_of_neg (by simp [hc]), List.dropWhile_cons_of_neg (by simp [hc])⟩
    have hquote {q : Char} (hq : isBareKeyChar q = false) (tail : List Char) :
        k.toList ++ rest ≠ q :: tail := by
      obtain ⟨c, name, hname⟩ := List.exists_cons_of_ne_nil hne
      intro heq
      rw [hname, List.cons_append] at heq
      have := hall c (hname ▸ List.mem_cons_self)
      rw [(List.cons.inj heq).1, hq] at this
      contradiction
    rw [simpleKey?.eq_3 _ (hquote (by decide)) (hquote (by decide)),
      List.takeWhile_append_of_pos hall, List.dropWhile_append_of_pos hall, hstop.1, hstop.2,
      List.append_nil, if_neg hne, String.ofList_toList]
  | basic h =>
    obtain ⟨body, hbody, rfl⟩ := h
    rw [List.cons_append, List.append_assoc, List.singleton_append, simpleKey?.eq_1,
      basic?_append hbody, Option.map_some]
    dsimp only
    rw [String.ofList_toList]
  | literal h =>
    obtain ⟨hall, rfl⟩ := h
    rw [List.cons_append, List.append_assoc, List.singleton_append, simpleKey?.eq_2,
      literal?_append hall, Option.map_some]
    dsimp only
    rw [String.ofList_toList]

theorem not_bare_of_keyMark (ha : IsBlanks a) (hm : m ∈ keyMarks) (c : Char)
    (hc : (a ++ m :: rest).head? = some c) : isBareKeyChar c = false := by
  have hall : ∀ m ∈ keyMarks, isBareKeyChar m = false := by simp [keyMarks, isBareKeyChar]
  obtain hblank | rfl := head?_blanks ha hc
  · obtain rfl | rfl := isBlank_iff.mp hblank <;> decide
  · exact hall c hm

theorem IsKey.ne_nil (h : IsKey p cs) : p ≠ [] := by
  cases h <;> exact List.cons_ne_nil _ _

theorem IsKey.length_le (h : IsKey p cs) : p.length ≤ cs.length := by
  induction h with
  | one hname =>
    obtain ⟨c, tail, rfl, -⟩ := hname.exists_cons
    exact Nat.succ_le_succ (Nat.zero_le _)
  | dot _ _ _ _ ih =>
    simp only [List.length_cons, List.length_append]
    omega

theorem IsKey.exists_concat (h : IsKey p cs) : ∃ front last, p = front ++ [last] :=
  (List.eq_nil_or_concat' p).resolve_left h.ne_nil

theorem names_append (h : IsKey p cs) (ha : IsBlanks a) (hb : IsBlanks b)
    (hm : m = '=' ∨ m = ']') (rest : List Char) {fuel : Nat} (hfuel : p.length ≤ fuel)
    {front : List String} {last : String} (hp : p = front ++ [last]) :
    key?.names fuel (a ++ (cs ++ (b ++ m :: rest))) = some (front, last, m :: rest) := by
  have hmark : m ∈ keyMarks := by obtain rfl | rfl := hm <;> decide
  have hdot : m ≠ '.' := by obtain rfl | rfl := hm <;> decide
  induction h generalizing a fuel front with
  | @one k cs hname =>
    obtain ⟨fuel, rfl⟩ := Nat.exists_eq_add_one_of_ne_zero (show fuel ≠ 0 by simp at hfuel; omega)
    obtain ⟨rfl, hlast⟩ := List.append_inj' (show [] ++ [k] = front ++ [last] from hp) rfl
    obtain rfl := List.singleton_inj.mp hlast
    rw [key?.names.eq_2, skipBlanks_key ha (.one hname),
      simpleKey?_append hname (not_bare_of_keyMark hb hmark), Option.bind_eq_bind, Option.bind_some]
    dsimp only
    rw [skipBlanks_keyMark hb hmark]
    split
    next heq => exact absurd (List.cons.inj heq).1 hdot
    next => rfl
  | @dot k cs a' b' p more hname ha' hb' hmore ih =>
    rw [List.length_cons] at hfuel
    obtain ⟨fuel, rfl⟩ := Nat.exists_eq_add_one_of_ne_zero (show fuel ≠ 0 by omega)
    obtain ⟨front', last', rfl⟩ := hmore.exists_concat
    have hconcat : k :: front' ++ [last'] = front ++ [last] := hp
    obtain ⟨rfl, hlast⟩ := List.append_inj' hconcat rfl
    obtain rfl := List.singleton_inj.mp hlast
    have hnames := ih hb' (Nat.le_of_succ_le_succ hfuel) rfl
    rw [key?.names.eq_2, List.append_assoc, List.append_assoc, List.cons_append, List.append_assoc,
      skipBlanks_key ha (.one hname), simpleKey?_append hname (not_bare_of_keyMark ha' (by decide)),
      Option.bind_eq_bind, Option.bind_some]
    dsimp only
    rw [skipBlanks_keyMark ha' (by decide)]
    exact (congrArg (Option.map _) hnames).trans rfl

/-- A key is taken up to the mark behind it. -/
theorem key?_append {front : List String} {last : String} (h : IsKey (front ++ [last]) cs)
    (hlen : (front ++ [last]).length < depthLimit) (ha : IsBlanks a) (hb : IsBlanks b)
    (hm : m = '=' ∨ m = ']') (rest : List Char) :
    key? (a ++ (cs ++ (b ++ m :: rest))) = some (front, last, m :: rest) := by
  have hfuel : (front ++ [last]).length ≤ (a ++ (cs ++ (b ++ m :: rest))).length + 1 := by
    have := h.length_le
    simp only [List.length_append] at this ⊢
    omega
  rw [key?, names_append h ha hb hm rest hfuel rfl, Option.bind_eq_bind, Option.bind_some]
  dsimp only
  rw [if_pos (by simpa using hlen)]

end

end Sidecar.Toml
