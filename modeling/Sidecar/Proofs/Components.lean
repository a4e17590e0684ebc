import Sidecar.Proofs.Matching

/-! Patterns read component by component. A whole pattern says what its components say with a slash
between each two, and it matches a path exactly when the components can be laid along the names. -/

namespace Sidecar.Glob

/-- A token that stays within one name. -/
def Token.Plain : Token → Prop
  | .literal c => c ≠ '/'
  | .anyChar | .oneOf _ _ | .run => True
  | .directories | .remainder => False

theorem classBody_append {cs body rest : List Char} (h : classBody cs = some (body, rest))
    (more : List Char) : classBody (cs ++ more) = some (body, rest ++ more) := by
  cases cs with
  | nil => simp [classBody] at h
  | cons first cs =>
    simp only [classBody] at h
    split at h
    next d after hd =>
      have hne : (cs.dropWhile (· ≠ ']')).isEmpty = false := by rw [hd]; rfl
      have htake : (cs ++ more).takeWhile (· ≠ ']') = cs.takeWhile (· ≠ ']') := by
        rw [List.takeWhile_append, if_neg]
        intro hlen
        have := List.takeWhile_append_dropWhile (p := (· ≠ ']')) (l := cs)
        have := congrArg List.length this
        rw [List.length_append, hlen, hd, List.length_cons] at this
        omega
      simp only [List.cons_append, classBody, htake]
      rw [List.dropWhile_append, hne, hd]
      simp only [Option.some.injEq, Prod.mk.injEq] at h
      simp [← h.1, ← h.2]
    next => contradiction

theorem classToken_append {cs rest : List Char} {tok : Token}
    (h : classToken cs = some (tok, rest)) (more : List Char) :
    classToken (cs ++ more) = some (tok, rest ++ more) := by
  unfold classToken at h
  split at h
  next cs =>
    have ⟨⟨body, after⟩, hb, he⟩ := Option.map_eq_some_iff.mp h
    simp only [Prod.mk.injEq] at he
    rw [List.cons_append, classToken, classBody_append hb more, ← he.1, ← he.2]
    rfl
  next _ hnot =>
    have ⟨⟨body, after⟩, hb, he⟩ := Option.map_eq_some_iff.mp h
    simp only [Prod.mk.injEq] at he
    have hnot' : ∀ ds, cs ++ more = '!' :: ds → False := by
      intro ds hds
      cases cs with
      | nil => simp [classBody] at hb
      | cons c ds => exact hnot ds (by rw [(List.cons.inj hds).1])
    rw [classToken, classBody_append hb more, ← he.1, ← he.2]
    · rfl
    · exact hnot'

theorem not_mem_of_classToken {cs rest : List Char} {tok : Token} {c : Char}
    (h : classToken cs = some (tok, rest)) (hc : c ∉ cs) : c ∉ rest := by
  have hbody {ds body after : List Char} (hb : classBody ds = some (body, after)) :
      after <:+ ds := by
    cases ds with
    | nil => simp [classBody] at hb
    | cons first ds =>
      simp only [classBody] at hb
      split at hb
      next d rest hd =>
        simp only [Option.some.injEq, Prod.mk.injEq] at hb
        rw [← hb.2]
        exact (List.suffix_cons d rest).trans
          ((hd ▸ List.dropWhile_suffix _).trans (List.suffix_cons first ds))
      next => contradiction
  have hsuffix : rest <:+ cs := by
    unfold classToken at h
    split at h
    all_goals
      obtain ⟨⟨body, after⟩, hb, he⟩ := Option.map_eq_some_iff.mp h
      simp only [Prod.mk.injEq] at he
      have := he.2 ▸ hbody hb
    · exact this.trans (List.suffix_cons _ _)
    · exact this
  exact fun hmem => hc (hsuffix.subset hmem)

theorem exists_of_classToken {cs rest : List Char} {tok : Token}
    (h : classToken cs = some (tok, rest)) : ∃ negated ranges, tok = .oneOf negated ranges := by
  unfold classToken at h
  split at h
  all_goals
    have ⟨_, _, he⟩ := Option.map_eq_some_iff.mp h
    exact ⟨_, _, (Prod.mk.inj he).1.symm⟩

theorem exists_of_map_eq_ok {ε α β : Type} {f : α → β} {x : Except ε α} {b : β}
    (h : x.map f = .ok b) : ∃ a, x = .ok a ∧ f a = b := by
  cases x with
  | error => contradiction
  | ok a => exact ⟨a, rfl, Except.ok.inj h⟩

theorem map_map_except {ε α β γ : Type} (f : β → γ) (g : α → β) (x : Except ε α) :
    (x.map g).map f = x.map fun a => f (g a) := by
  cases x with
  | error | ok => rfl

/-- A component other than `**` says only what stays within a name. -/
theorem tokens_plain {fresh : Bool} {cs : List Char} {ts : List Token}
    (h : tokens fresh cs = .ok ts) (hslash : '/' ∉ cs)
    (hstars : fresh = false ∨ cs ≠ ['*', '*']) : ∀ tok ∈ ts, tok.Plain := by
  fun_induction tokens fresh cs generalizing ts with
  | case1 =>
    rw [← Except.ok.inj h]
    simp
  | case2 _ cs ih =>
    obtain ⟨us, hus, rfl⟩ := exists_of_map_eq_ok h
    have := ih hus (fun hm => hslash (List.mem_cons_of_mem _ hm)) (.inl rfl)
    simpa [Token.Plain] using this
  | case4 => simp at hstars
  | case5 => simp at hslash
  | case6 => simp at hslash
  | case9 _ cs _ _ ih =>
    obtain ⟨us, hus, rfl⟩ := exists_of_map_eq_ok h
    have := ih hus (fun hm => hslash (List.mem_cons_of_mem _ hm)) (.inl rfl)
    simpa [Token.Plain] using this
  | case10 _ cs tok rest htok _ ih =>
    obtain ⟨us, hus, rfl⟩ := exists_of_map_eq_ok h
    have hcs : '/' ∉ cs := fun hm => hslash (List.mem_cons_of_mem _ hm)
    have := ih hus (not_mem_of_classToken htok hcs) (.inl rfl)
    obtain ⟨negated, ranges, rfl⟩ := exists_of_classToken htok
    simpa [Token.Plain] using this
  | case12 _ c cs _ _ _ _ _ ih =>
    obtain ⟨us, hus, rfl⟩ := exists_of_map_eq_ok h
    rw [List.mem_cons, not_or] at hslash
    have := ih hus hslash.2 (.inl (by simpa using Ne.symm hslash.1))
    simpa [Token.Plain, Ne.symm hslash.1] using this
  | case3 | case7 | case8 | case11 => contradiction

/-- What stands behind a component and a slash is read as a pattern of its own. -/
theorem tokens_append_slash {fresh : Bool} {cs : List Char} {ts : List Token}
    (h : tokens fresh cs = .ok ts) (hslash : '/' ∉ cs)
    (hstars : fresh = false ∨ cs ≠ ['*', '*']) (more : List Char) :
    tokens fresh (cs ++ '/' :: more) = (tokens true more).map (ts ++ .literal '/' :: ·) := by
  fun_induction tokens fresh cs generalizing ts with
  | case1 =>
    rw [← Except.ok.inj h]
    simp [tokens]
  | case2 _ cs ih =>
    obtain ⟨us, hus, rfl⟩ := exists_of_map_eq_ok h
    have := ih hus (fun hm => hslash (List.mem_cons_of_mem _ hm)) (.inl rfl)
    rw [List.cons_append, tokens, this, map_map_except]
    rfl
  | case4 => simp at hstars
  | case5 => simp at hslash
  | case6 => simp at hslash
  | case9 _ cs hnot₁ hnot₂ ih =>
    obtain ⟨us, hus, rfl⟩ := exists_of_map_eq_ok h
    have := ih hus (fun hm => hslash (List.mem_cons_of_mem _ hm)) (.inl rfl)
    have hnot (ds : List Char) : cs ++ '/' :: more = '*' :: ds → False := by
      intro hds
      cases cs with
      | nil => simp at hds
      | cons c cs => exact hnot₂ cs (by rw [(List.cons.inj hds).1])
    rw [List.cons_append, tokens, this, map_map_except]
    · rfl
    · exact fun ds hds => hnot _ hds
    · exact hnot
  | case10 _ cs tok rest htok _ ih =>
    obtain ⟨us, hus, rfl⟩ := exists_of_map_eq_ok h
    have hcs : '/' ∉ cs := fun hm => hslash (List.mem_cons_of_mem _ hm)
    have := ih hus (not_mem_of_classToken htok hcs) (.inl rfl)
    have hclass := classToken_append htok ('/' :: more)
    rw [List.cons_append, tokens]
    split
    next tok' rest' htok' =>
      rw [hclass] at htok'
      obtain ⟨rfl, rfl⟩ := Prod.mk.inj (Option.some.inj htok')
      rw [this, map_map_except]
      rfl
    next hnone =>
      rw [hclass] at hnone
      contradiction
  | case12 _ c cs hq _ hss hs hb ih =>
    obtain ⟨us, hus, rfl⟩ := exists_of_map_eq_ok h
    rw [List.mem_cons, not_or] at hslash
    have := ih hus hslash.2 (.inl (by simpa using Ne.symm hslash.1))
    rw [List.cons_append, tokens, this, map_map_except]
    · rfl
    · exact hq
    · exact fun _ hc _ => hs hc
    · exact fun _ hc _ => hs hc
    · exact hs
    · exact hb
  | case3 | case7 | case8 | case11 => contradiction

theorem eq_of_tokens_literal {fresh : Bool} {cs ls : List Char}
    (h : tokens fresh cs = .ok (ls.map .literal)) : cs = ls := by
  fun_induction tokens fresh cs generalizing ls with
  | case1 => cases ls <;> simp_all
  | case12 _ c cs _ _ _ _ _ ih =>
    have ⟨us, hus, hls⟩ := exists_of_map_eq_ok h
    cases ls with
    | nil => simp at hls
    | cons l ls =>
      rw [List.map_cons, List.cons.injEq, Token.literal.injEq] at hls
      rw [hls.1, ih (hls.2 ▸ hus)]
  | case2 | case6 | case9 =>
    have ⟨_, _, hls⟩ := exists_of_map_eq_ok h
    cases ls <;> simp at hls
  | case10 _ _ tok _ htok =>
    have ⟨_, _, hls⟩ := exists_of_map_eq_ok h
    obtain ⟨negated, ranges, rfl⟩ := exists_of_classToken htok
    cases ls <;> simp at hls
  | case4 | case5 =>
    have := (Except.ok.inj h).symm
    cases ls <;> simp at this
  | case3 | case7 | case8 | case11 => contradiction

theorem tokens_eq_literal_cons {fresh : Bool} {cs : List Char} {l : Char} {ts : List Token}
    (h : tokens fresh cs = .ok (.literal l :: ts)) :
    ∃ rest, cs = l :: rest ∧ tokens (l == '/') rest = .ok ts := by
  fun_induction tokens fresh cs with
  | case12 _ c cs =>
    have ⟨us, hus, he⟩ := exists_of_map_eq_ok h
    obtain ⟨hl, rfl⟩ := List.cons.inj he
    rw [Token.literal.injEq] at hl
    exact ⟨cs, by rw [hl], hl ▸ hus⟩
  | case2 | case6 | case9 =>
    have ⟨_, _, he⟩ := exists_of_map_eq_ok h
    simp at he
  | case10 _ _ tok _ htok =>
    have ⟨_, _, he⟩ := exists_of_map_eq_ok h
    obtain ⟨negated, ranges, rfl⟩ := exists_of_classToken htok
    simp at he
  | case1 | case4 | case5 =>
    have := Except.ok.inj h
    simp at this
  | case3 | case7 | case8 | case11 => contradiction

/-- Inside a component only `*` can match nothing, and only once. -/
theorem eq_of_tokens_matches_nil {cs : List Char} {ts : List Token}
    (h : tokens false cs = .ok ts) (hm : Matches ts []) : cs = [] ∨ cs = ['*'] := by
  have hrun {us : List Token} (hus : Matches (.run :: us) []) : Matches us [] := by
    have ⟨r, hr, hmatch⟩ := matches_cons_iff.mp hus
    obtain rfl := List.mem_singleton.mp hr
    exact hmatch
  generalize hf : false = fresh at h
  fun_induction tokens fresh cs generalizing ts with
  | case1 => exact .inl rfl
  | case9 _ cs _ hnot ih =>
    obtain ⟨us, hus, rfl⟩ := exists_of_map_eq_ok h
    rcases ih (hrun hm) rfl hus with rfl | rfl
    · exact .inr rfl
    · exact (hnot [] rfl).elim
  | case4 | case5 | case6 | case7 => contradiction
  | case2 | case12 =>
    obtain ⟨us, _, rfl⟩ := exists_of_map_eq_ok h
    cases hm
  | case10 _ _ tok _ htok =>
    obtain ⟨us, _, rfl⟩ := exists_of_map_eq_ok h
    obtain ⟨negated, ranges, rfl⟩ := exists_of_classToken htok
    cases hm
  | case3 | case8 | case11 => contradiction

/-- What an escaped character says. -/
def Token.only (c : Char) : Token :=
  if c ∈ ['?', '*', '[', ']'] then .oneOf false [(c, c)] else .literal c

theorem tokens_escape (fresh : Bool) {cs : List Char} (hslash : '/' ∉ cs) :
    tokens fresh (escape cs) = .ok (cs.map Token.only) := by
  induction cs generalizing fresh with
  | nil => simp [escape, tokens]
  | cons c cs ih =>
    rw [List.mem_cons, not_or] at hslash
    rw [escape, List.flatMap_cons, ← escape, List.map_cons]
    by_cases hc : c ∈ ['?', '*', '[', ']']
    · have hclass : classToken ([c, ']'] ++ escape cs) =
          some (.oneOf false [(c, c)], escape cs) := by
        have : classToken [c, ']'] = some (.oneOf false [(c, c)], []) := by
          simp only [List.mem_cons, List.not_mem_nil, or_false] at hc
          rcases hc with rfl | rfl | rfl | rfl <;> rfl
        exact classToken_append this (escape cs)
      rw [if_pos hc, Token.only, if_pos hc, List.cons_append, tokens]
      split
      next tok rest htok =>
        obtain ⟨rfl, rfl⟩ := Prod.mk.inj (Option.some.inj (htok.symm.trans hclass))
        rw [ih false hslash.2]
        rfl
      next hnone => exact absurd (hnone.symm.trans hclass) (by simp)
    · rw [if_neg hc, Token.only, if_neg hc, List.singleton_append, tokens,
        ih _ hslash.2]
      · rfl
      all_goals simp_all

theorem mem_escape {c : Char} {cs : List Char} (hc : c ∉ ['[', ']']) :
    c ∈ escape cs ↔ c ∈ cs := by
  simp only [escape, List.mem_flatMap]
  constructor
  · intro ⟨d, hd, hcd⟩
    split at hcd
    · simp only [List.mem_cons, List.not_mem_nil, or_false, not_or] at hcd hc
      rcases hcd with rfl | rfl | rfl
      · exact absurd rfl hc.1
      · exact hd
      · exact absurd rfl hc.2
    · exact List.mem_singleton.mp hcd ▸ hd
  · intro h
    refine ⟨c, h, ?_⟩
    split <;> simp

/-! Matching component by component. -/

theorem not_mem_of_matches_plain {ts : List Token} {cs : List Char}
    (hplain : ∀ tok ∈ ts, tok.Plain) (h : Matches ts cs) : '/' ∉ cs := by
  induction h with
  | nil => simp
  | directories | remainder => exact (hplain _ List.mem_cons_self).elim
  | literal _ ih =>
    have hc := hplain _ List.mem_cons_self
    have := ih fun tok htok => hplain tok (List.mem_cons_of_mem _ htok)
    rw [List.mem_cons, not_or]
    exact ⟨Ne.symm hc, this⟩
  | anyChar hd _ ih | inside hd _ _ ih | outside hd _ _ ih =>
    have := ih fun tok htok => hplain tok (List.mem_cons_of_mem _ htok)
    rw [List.mem_cons, not_or]
    exact ⟨Ne.symm hd, this⟩
  | run hslash _ ih =>
    have := ih fun tok htok => hplain tok (List.mem_cons_of_mem _ htok)
    rw [List.mem_append, not_or]
    exact ⟨hslash, this⟩

theorem matches_append {ts us : List Token} {a b : List Char} (ha : Matches ts a)
    (hplain : ∀ tok ∈ ts, tok.Plain) (hb : Matches us b) : Matches (ts ++ us) (a ++ b) := by
  induction ha with
  | nil => exact hb
  | remainder => exact (hplain _ List.mem_cons_self).elim
  | literal _ ih =>
    exact .literal (ih fun tok htok => hplain tok (List.mem_cons_of_mem _ htok))
  | anyChar hd _ ih =>
    exact .anyChar hd (ih fun tok htok => hplain tok (List.mem_cons_of_mem _ htok))
  | inside hd hr _ ih =>
    exact .inside hd hr (ih fun tok htok => hplain tok (List.mem_cons_of_mem _ htok))
  | outside hd hr _ ih =>
    exact .outside hd hr (ih fun tok htok => hplain tok (List.mem_cons_of_mem _ htok))
  | run hslash _ ih =>
    rw [List.append_assoc]
    exact .run hslash (ih fun tok htok => hplain tok (List.mem_cons_of_mem _ htok))
  | directories => exact (hplain _ List.mem_cons_self).elim

theorem exists_of_matches_append {ts us : List Token} {cs : List Char}
    (hplain : ∀ tok ∈ ts, tok.Plain) (h : Matches (ts ++ us) cs) :
    ∃ a b, cs = a ++ b ∧ Matches ts a ∧ Matches us b := by
  induction ts generalizing cs with
  | nil => exact ⟨[], cs, rfl, .nil, h⟩
  | cons t ts ih =>
    have hrest : ∀ tok ∈ ts, tok.Plain := fun tok htok => hplain tok (List.mem_cons_of_mem _ htok)
    cases h with
    | literal h =>
      obtain ⟨a, b, rfl, ha, hb⟩ := ih hrest h
      exact ⟨_ :: a, b, rfl, .literal ha, hb⟩
    | anyChar hd h =>
      obtain ⟨a, b, rfl, ha, hb⟩ := ih hrest h
      exact ⟨_ :: a, b, rfl, .anyChar hd ha, hb⟩
    | inside hd hr h =>
      obtain ⟨a, b, rfl, ha, hb⟩ := ih hrest h
      exact ⟨_ :: a, b, rfl, .inside hd hr ha, hb⟩
    | outside hd hr h =>
      obtain ⟨a, b, rfl, ha, hb⟩ := ih hrest h
      exact ⟨_ :: a, b, rfl, .outside hd hr ha, hb⟩
    | @run taken _ _ hslash h =>
      obtain ⟨a, b, rfl, ha, hb⟩ := ih hrest h
      exact ⟨taken ++ a, b, (List.append_assoc ..).symm, .run hslash ha, hb⟩
    | directories | remainder => exact (hplain _ List.mem_cons_self).elim

theorem matches_literal_iff {ls cs : List Char} : Matches (ls.map .literal) cs ↔ cs = ls := by
  induction ls generalizing cs with
  | nil => exact ⟨fun h => by cases h; rfl, by rintro rfl; exact .nil⟩
  | cons l ls ih =>
    constructor
    · intro h
      cases h with
      | literal h => rw [ih.mp h]
    · rintro rfl
      exact .literal (ih.mpr rfl)

theorem matches_only_iff {ls cs : List Char} (hslash : '/' ∉ ls) :
    Matches (ls.map Token.only) cs ↔ cs = ls := by
  induction ls generalizing cs with
  | nil => exact ⟨fun h => by cases h; rfl, by rintro rfl; exact .nil⟩
  | cons l ls ih =>
    rw [List.mem_cons, not_or] at hslash
    rw [List.map_cons, Token.only]
    split
    · constructor
      · intro h
        cases h with
        | inside _ hr h =>
          have ⟨_, hmem, hlo, hhi⟩ := hr
          obtain rfl := List.mem_singleton.mp hmem
          rw [(ih hslash.2).mp h, Char.le_antisymm hhi hlo]
      · rintro rfl
        exact .inside (Ne.symm hslash.1) ⟨(l, l), by simp, Char.le_refl l, Char.le_refl l⟩
          ((ih hslash.2).mpr rfl)
    · constructor
      · intro h
        cases h with
        | literal h => rw [(ih hslash.2).mp h]
      · rintro rfl
        exact .literal ((ih hslash.2).mpr rfl)

end Sidecar.Glob
