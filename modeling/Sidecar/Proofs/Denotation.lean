import Sidecar.Proofs.Exclusion

/-! What a pattern denotes, read off its spelling and without tokens. The matcher, which follows all
rests of a text that are left to match, accepts just the texts that the spelling describes, so
exclusions take away exactly the paths that one of their spellings describes. -/

namespace Sidecar

namespace Glob

/-- What the spelling of a pattern describes from some place on; `fresh` says that a component
starts there. -/
inductive DescribesFrom : Bool → List Char → List Char → Prop where
  | nil {fresh} : DescribesFrom fresh [] []
  | ordinary {fresh c cs text} : c ∉ ['?', '*', '['] → DescribesFrom (c == '/') cs text →
      DescribesFrom fresh (c :: cs) (c :: text)
  | anyChar {fresh d cs text} : d ≠ '/' → DescribesFrom false cs text →
      DescribesFrom fresh ('?' :: cs) (d :: text)
  /-- The first character of a class may be `]`, which then does not close it. -/
  | inside {fresh first rest d cs text} : first ≠ '!' → ']' ∉ rest → d ≠ '/' →
      InRanges (classRanges (first :: rest)) d → DescribesFrom false cs text →
      DescribesFrom fresh ('[' :: first :: (rest ++ ']' :: cs)) (d :: text)
  | outside {fresh first rest d cs text} : ']' ∉ rest → d ≠ '/' →
      ¬InRanges (classRanges (first :: rest)) d → DescribesFrom false cs text →
      DescribesFrom fresh ('[' :: '!' :: first :: (rest ++ ']' :: cs)) (d :: text)
  | run {fresh taken cs text} : cs.head? ≠ some '*' → '/' ∉ taken → DescribesFrom false cs text →
      DescribesFrom fresh ('*' :: cs) (taken ++ text)
  | directories {taken cs text} : cs ≠ [] → IsDirectories taken → DescribesFrom true cs text →
      DescribesFrom true ('*' :: '*' :: '/' :: cs) (taken ++ text)
  | remainder {cs text} : cs = [] ∨ cs = ['/'] → DescribesFrom true ('*' :: '*' :: cs) text

/-- The whole of a text is described by the whole of a pattern's spelling. -/
def Describes (p text : String) : Prop :=
  DescribesFrom true p.toList text.toList

/-! One equation of the tokenizer for each thing that can be written. -/

theorem tokens_ordinary (fresh : Bool) {c : Char} (hc : c ∉ ['?', '*', '[']) (cs : List Char) :
    tokens fresh (c :: cs) = (tokens (c == '/') cs).map (.literal c :: ·) := by
  simp only [List.mem_cons, List.not_mem_nil, or_false, not_or] at hc
  rw [tokens]
  · exact hc.1
  · exact fun _ h => absurd h hc.2.1
  · exact fun _ h => absurd h hc.2.1
  · exact hc.2.1
  · exact hc.2.2

theorem tokens_run (fresh : Bool) {cs : List Char} (hcs : cs.head? ≠ some '*') :
    tokens fresh ('*' :: cs) = (tokens false cs).map (.run :: ·) := by
  rw [tokens]
  · rintro _ rfl
    exact hcs rfl
  · rintro _ rfl
    exact hcs rfl

theorem tokens_directories {cs : List Char} (hcs : cs ≠ []) :
    tokens true ('*' :: '*' :: '/' :: cs) = (tokens true cs).map (.directories :: ·) := by
  cases cs with
  | nil => contradiction
  | cons => rw [tokens, if_pos rfl]

theorem tokens_remainder {cs : List Char} (hcs : cs = [] ∨ cs = ['/']) :
    tokens true ('*' :: '*' :: cs) = .ok [.remainder] := by
  rcases hcs with rfl | rfl <;> simp [tokens]

theorem tokens_class (fresh : Bool) {cs rest : List Char} {tok : Token}
    (h : classToken cs = some (tok, rest)) :
    tokens fresh ('[' :: cs) = (tokens false rest).map (tok :: ·) := by
  rw [tokens]
  split
  next tok' rest' htok =>
    rw [h] at htok
    obtain ⟨rfl, rfl⟩ := Prod.mk.inj (Option.some.inj htok)
    rfl
  next hnone =>
    rw [h] at hnone
    contradiction

/-- A class body is a character and what follows it up to the next `]`. -/
theorem classBody_eq_some_iff {cs body after : List Char} : classBody cs = some (body, after) ↔
    ∃ first rest, body = first :: rest ∧ ']' ∉ rest ∧ cs = first :: (rest ++ ']' :: after) := by
  constructor
  · intro h
    cases cs with
    | nil => simp [classBody] at h
    | cons first cs =>
      simp only [classBody] at h
      split at h
      next close rest hclose =>
        have hstop : close = ']' := by
          have := List.head?_dropWhile_not (· ≠ ']') cs
          rw [hclose] at this
          simpa using this
        obtain ⟨rfl, rfl⟩ := Prod.mk.inj (Option.some.inj h)
        refine ⟨first, cs.takeWhile (· ≠ ']'), rfl, fun hmem => ?_, ?_⟩
        · simpa using List.all_eq_true.mp List.all_takeWhile _ hmem
        · rw [hstop] at hclose
          rw [← hclose, List.takeWhile_append_dropWhile]
      next => contradiction
  · rintro ⟨first, rest, rfl, hclose, rfl⟩
    have hrest : ∀ c ∈ rest, decide (c ≠ ']') = true := by
      intro c hc
      rw [decide_eq_true_iff]
      rintro rfl
      exact hclose hc
    rw [classBody, List.dropWhile_append_of_pos hrest, List.takeWhile_append_of_pos hrest,
      List.dropWhile_cons_of_neg (by simp), List.takeWhile_cons_of_neg (by simp), List.append_nil]

theorem classToken_inside {first : Char} {rest : List Char} (hfirst : first ≠ '!')
    (hrest : ']' ∉ rest) (cs : List Char) :
    classToken (first :: (rest ++ ']' :: cs)) =
      some (.oneOf false (classRanges (first :: rest)), cs) := by
  rw [classToken, classBody_eq_some_iff.mpr ⟨first, rest, rfl, hrest, rfl⟩]
  · rfl
  · exact fun _ h => hfirst (List.cons.inj h).1

theorem classToken_outside (first : Char) {rest : List Char} (hrest : ']' ∉ rest)
    (cs : List Char) :
    classToken ('!' :: first :: (rest ++ ']' :: cs)) =
      some (.oneOf true (classRanges (first :: rest)), cs) := by
  rw [classToken, classBody_eq_some_iff.mpr ⟨first, rest, rfl, hrest, rfl⟩]
  rfl

theorem classToken_eq_some {cs after : List Char} {tok : Token}
    (h : classToken cs = some (tok, after)) : ∃ first rest, ']' ∉ rest ∧
      (first ≠ '!' ∧ cs = first :: (rest ++ ']' :: after) ∧
        tok = .oneOf false (classRanges (first :: rest)) ∨
      cs = '!' :: first :: (rest ++ ']' :: after) ∧
        tok = .oneOf true (classRanges (first :: rest))) := by
  unfold classToken at h
  split at h
  next cs =>
    have ⟨⟨body, _⟩, hbody, htok⟩ := Option.map_eq_some_iff.mp h
    obtain ⟨rfl, rfl⟩ := Prod.mk.inj htok
    obtain ⟨first, rest, rfl, hrest, rfl⟩ := classBody_eq_some_iff.mp hbody
    exact ⟨first, rest, hrest, .inr ⟨rfl, rfl⟩⟩
  next hnot =>
    have ⟨⟨body, _⟩, hbody, htok⟩ := Option.map_eq_some_iff.mp h
    obtain ⟨rfl, rfl⟩ := Prod.mk.inj htok
    obtain ⟨first, rest, rfl, hrest, rfl⟩ := classBody_eq_some_iff.mp hbody
    exact ⟨first, rest, hrest, .inl ⟨fun hbang => hnot _ (by rw [hbang]), rfl, rfl⟩⟩

/-- A spelling that describes some text can be read, and its tokens match the text. -/
theorem DescribesFrom.exists_tokens {fresh : Bool} {cs text : List Char}
    (h : DescribesFrom fresh cs text) : ∃ ts, tokens fresh cs = .ok ts ∧ Matches ts text := by
  induction h with
  | nil => exact ⟨[], tokens.eq_1 _, .nil⟩
  | ordinary hc _ ih =>
    obtain ⟨ts, hts, hmatch⟩ := ih
    exact ⟨_, by rw [tokens_ordinary _ hc, hts]; rfl, .literal hmatch⟩
  | anyChar hd _ ih =>
    obtain ⟨ts, hts, hmatch⟩ := ih
    exact ⟨_, by rw [tokens, hts]; rfl, .anyChar hd hmatch⟩
  | inside hfirst hrest hd hin _ ih =>
    obtain ⟨ts, hts, hmatch⟩ := ih
    exact ⟨_, by rw [tokens_class _ (classToken_inside hfirst hrest _), hts]; rfl,
      .inside hd hin hmatch⟩
  | outside hrest hd hout _ ih =>
    obtain ⟨ts, hts, hmatch⟩ := ih
    exact ⟨_, by rw [tokens_class _ (classToken_outside _ hrest _), hts]; rfl,
      .outside hd hout hmatch⟩
  | run hcs hslash _ ih =>
    obtain ⟨ts, hts, hmatch⟩ := ih
    exact ⟨_, by rw [tokens_run _ hcs, hts]; rfl, .run hslash hmatch⟩
  | directories hcs hdirs _ ih =>
    obtain ⟨ts, hts, hmatch⟩ := ih
    exact ⟨_, by rw [tokens_directories hcs, hts]; rfl, .directories hdirs hmatch⟩
  | remainder hcs => exact ⟨_, tokens_remainder hcs, .remainder .nil⟩

/-- The cases are those of the tokenizer; each token is described by what it was read from. -/
theorem describesFrom_of_matches {fresh : Bool} {cs text : List Char} {ts : List Token}
    (hts : tokens fresh cs = .ok ts) (h : Matches ts text) : DescribesFrom fresh cs text := by
  fun_induction tokens fresh cs generalizing ts text with
  | case1 =>
    rw [← Except.ok.inj hts] at h
    cases h
    exact .nil
  | case2 _ cs ih =>
    obtain ⟨us, hus, rfl⟩ := exists_of_map_eq_ok hts
    cases h with
    | anyChar hd h => exact .anyChar hd (ih hus h)
  | case4 | case5 =>
    rw [← Except.ok.inj hts] at h
    cases h
    exact .remainder (by simp)
  | case6 c cs _ ih =>
    obtain ⟨us, hus, rfl⟩ := exists_of_map_eq_ok hts
    cases h with
    | directories hdirs h => exact .directories (by simp) hdirs (ih hus h)
  | case9 _ cs hnot₁ hnot₂ ih =>
    obtain ⟨us, hus, rfl⟩ := exists_of_map_eq_ok hts
    have hstar : cs.head? ≠ some '*' := by
      intro hhead
      obtain ⟨more, rfl⟩ := List.head?_eq_some_iff.mp hhead
      exact hnot₂ more rfl
    cases h with
    | run hslash h => exact .run hstar hslash (ih hus h)
  | case10 _ cs tok rest htok _ ih =>
    obtain ⟨us, hus, rfl⟩ := exists_of_map_eq_ok hts
    obtain ⟨first, body, hbody, ⟨hfirst, rfl, rfl⟩ | ⟨rfl, rfl⟩⟩ := classToken_eq_some htok
    · cases h with
      | inside hd hin h => exact .inside hfirst hbody hd hin (ih hus h)
    · cases h with
      | outside hd hout h => exact .outside hbody hd hout (ih hus h)
  | case12 _ c cs hq _ hss hs hb ih =>
    obtain ⟨us, hus, rfl⟩ := exists_of_map_eq_ok hts
    have hc : c ∉ ['?', '*', '['] := by
      simp only [List.mem_cons, List.not_mem_nil, or_false, not_or]
      exact ⟨hq, hs, hb⟩
    cases h with
    | literal h => exact .ordinary hc (ih hus h)
  | case3 | case7 | case8 | case11 => contradiction

theorem Pattern.matches_iff_describes {p : String} {pattern : Pattern}
    (h : Pattern.parse p = .ok pattern) {text : String} :
    pattern.Matches text ↔ Describes p text := by
  have htokens := (Pattern.parse_eq_ok_iff.mp h).2
  constructor
  · exact describesFrom_of_matches htokens
  · intro hdescribes
    have ⟨ts, hts, hmatch⟩ := hdescribes.exists_tokens
    rw [htokens] at hts
    rw [Pattern.Matches, Except.ok.inj hts]
    exact hmatch

theorem not_describes_of_parse_eq_error {p : String} {e : PatternError}
    (h : Pattern.parse p = .error e) (text : String) : ¬Describes p text := by
  intro hdescribes
  have ⟨ts, hts, _⟩ := hdescribes.exists_tokens
  rw [Pattern.parse, hts] at h
  contradiction

instance (p text : String) : Decidable (Describes p text) :=
  match h : Pattern.parse p with
  | .ok pattern =>
    decidable_of_iff (pattern.matches text = true)
      (pattern.matches_iff text |>.trans (Pattern.matches_iff_describes h))
  | .error _ => isFalse (not_describes_of_parse_eq_error h text)

end Glob

open Glob

theorem compileExcludes_cons_eq_ok {p : String} {ps : List String} {exclude : List Pattern}
    (h : compileExcludes (p :: ps) = .ok exclude) : ∃ pattern more,
      Pattern.parse p = .ok pattern ∧ compileExcludes ps = .ok more ∧
        exclude = pattern :: more := by
  rw [compileExcludes, List.mapM_cons, ← compileExcludes, compilePattern] at h
  cases hp : Pattern.parse p with
  | error e =>
    rw [hp] at h
    contradiction
  | ok pattern =>
    cases hps : compileExcludes ps with
    | error e =>
      rw [hp, hps] at h
      contradiction
    | ok more =>
      rw [hp, hps] at h
      exact ⟨pattern, more, rfl, rfl, (Except.ok.inj h).symm⟩

theorem any_matches_eq_decide {ps : List String} {exclude : List Pattern}
    (h : compileExcludes ps = .ok exclude) (text : String) :
    exclude.any (·.matches text) = decide (∃ p ∈ ps, Describes p text) := by
  rw [Bool.eq_iff_iff, decide_eq_true_iff]
  induction ps generalizing exclude with
  | nil =>
    rw [← Except.ok.inj h]
    simp
  | cons p ps ih =>
    obtain ⟨pattern, more, hp, hps, rfl⟩ := compileExcludes_cons_eq_ok h
    rw [List.any_cons, Bool.or_eq_true, ih hps, Pattern.matches_iff,
      Pattern.matches_iff_describes hp, List.exists_mem_cons_iff]

/-- Exclusions take away exactly the files whose relative path the spelling of one of them
describes. The order stays, and so does a failure. -/
theorem resolve_excluding {ps : List String} {exclude : List Pattern}
    (h : compileExcludes ps = .ok exclude) (t : FileTree) (root : Path) (globs : List String) :
    resolve t root globs exclude = (resolve t root globs []).map fun files =>
      files.filter fun f => ¬∃ p ∈ ps, Describes p f.relPath := by
  rw [resolve_eq_filter]
  congr 1
  funext files
  apply List.filter_congr
  intro f _
  rw [any_matches_eq_decide h, decide_not]

/-- A class keeps what is outside it: `[!b]` takes away the one file `a`. -/
theorem resolve_excluding_oneFile :
    compileExcludes ["[!b]"] = .ok [⟨"[!b]", [.oneOf true [('b', 'b')]]⟩] ∧
      resolve FileTree.oneFile ⟨"/"⟩ ["a"] [⟨"[!b]", [.oneOf true [('b', 'b')]]⟩] = .ok [] := by
  have hexclude : compileExcludes ["[!b]"] = .ok [⟨"[!b]", [.oneOf true [('b', 'b')]]⟩] := by cbv
  have hall : resolve FileTree.oneFile ⟨"/"⟩ ["a"] [] = .ok [⟨⟨"/a"⟩, "a"⟩] := by cbv
  have hdescribed : Describes "[!b]" "a" :=
    @DescribesFrom.outside true 'b' [] 'a' [] [] (by decide) (by decide)
      (by rw [← inRanges_iff]; decide) .nil
  refine ⟨hexclude, ?_⟩
  rw [resolve_excluding hexclude, hall]
  simp [Except.map, hdescribed]

end Sidecar
