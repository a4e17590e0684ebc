import Sidecar.Proofs.Spelling

/-! The matcher decides the relation. All rests that it keeps are ends of one text, so two of one
length are the same. -/

namespace Sidecar.Glob

theorem mem_afterRun {cs r : List Char} :
    r ∈ afterRun cs ↔ ∃ taken, '/' ∉ taken ∧ cs = taken ++ r := by
  induction cs with
  | nil =>
    simp only [afterRun, List.mem_singleton]
    constructor
    · rintro rfl
      exact ⟨[], by simp, rfl⟩
    · intro ⟨taken, _, h⟩
      exact (List.append_eq_nil_iff.mp h.symm).2
  | cons c cs ih =>
    simp only [afterRun, List.mem_cons]
    constructor
    · rintro (rfl | h)
      · exact ⟨[], by simp, rfl⟩
      · split at h
        · simp at h
        next hc =>
          obtain ⟨taken, hslash, rfl⟩ := ih.mp h
          exact ⟨c :: taken, by simp [hslash, Ne.symm hc], rfl⟩
    · intro ⟨taken, hslash, h⟩
      cases taken with
      | nil => exact .inl h.symm
      | cons d rest =>
        obtain ⟨rfl, rfl⟩ := List.cons.inj h
        rw [List.mem_cons, not_or] at hslash
        rw [if_neg (Ne.symm hslash.1)]
        exact .inr (ih.mpr ⟨rest, hslash.2, rfl⟩)

theorem mem_afterSlashes {cs r : List Char} :
    r ∈ afterSlashes cs ↔ ∃ taken, cs = taken ++ '/' :: r := by
  induction cs with
  | nil => simp [afterSlashes]
  | cons c cs ih =>
    simp only [afterSlashes]
    have hbehind : r ∈ afterSlashes cs → ∃ taken, c :: cs = taken ++ '/' :: r := by
      intro h
      obtain ⟨taken, rfl⟩ := ih.mp h
      exact ⟨c :: taken, rfl⟩
    constructor
    · split
      next hc =>
        intro h
        rcases List.mem_cons.mp h with rfl | h
        · exact ⟨[], by rw [hc]; rfl⟩
        · exact hbehind h
      next => exact hbehind
    · intro ⟨taken, h⟩
      cases taken with
      | nil =>
        obtain ⟨rfl, rfl⟩ := List.cons.inj h
        simp
      | cons d rest =>
        obtain ⟨rfl, rfl⟩ := List.cons.inj h
        have := ih.mpr ⟨rest, rfl⟩
        split
        · exact List.mem_cons_of_mem _ this
        · exact this

theorem isDirectories_concat (taken : List Char) : IsDirectories (taken ++ ['/']) :=
  .inr List.getLast?_concat

/-- A token's rests are what it leaves of the texts that it opens a match of. -/
theorem matches_cons_iff {t : Token} {ts : List Token} {cs : List Char} :
    Matches (t :: ts) cs ↔ ∃ r ∈ t.rests cs, Matches ts r := by
  constructor
  · intro h
    cases h with
    | @literal c _ cs h => exact ⟨cs, by simp [Token.rests], h⟩
    | @anyChar d _ cs hd h => exact ⟨cs, by simp [Token.rests, hd], h⟩
    | @inside ranges d _ cs hd hr h =>
      exact ⟨cs, by simp [Token.rests, hd, inRanges_iff.mpr hr], h⟩
    | @outside ranges d _ cs hd hr h =>
      refine ⟨cs, ?_, h⟩
      have : inRanges ranges d = false := by
        rw [← Bool.not_eq_true, inRanges_iff]
        exact hr
      simp [Token.rests, hd, this]
    | @run taken _ cs hslash h => exact ⟨cs, mem_afterRun.mpr ⟨taken, hslash, rfl⟩, h⟩
    | @directories taken _ cs hdirs h =>
      refine ⟨cs, ?_, h⟩
      rcases hdirs with rfl | hlast
      · exact List.mem_cons_self
      · obtain ⟨init, rfl⟩ := List.getLast?_eq_some_iff.mp hlast
        exact List.mem_cons_of_mem _ (mem_afterSlashes.mpr ⟨init, by simp⟩)
    | remainder h => exact ⟨[], by simp [Token.rests], h⟩
  · intro ⟨r, hr, h⟩
    cases t with
    | run =>
      obtain ⟨taken, hslash, rfl⟩ := mem_afterRun.mp hr
      exact .run hslash h
    | directories =>
      rcases List.mem_cons.mp hr with rfl | hr
      · exact .directories (show IsDirectories [] from .inl rfl) h
      · obtain ⟨taken, rfl⟩ := mem_afterSlashes.mp hr
        have := Matches.directories (isDirectories_concat taken) h
        rwa [List.append_assoc] at this
    | remainder =>
      obtain rfl := List.mem_singleton.mp hr
      exact .remainder h
    | literal c =>
      cases cs with
      | nil => simp [Token.rests] at hr
      | cons d cs =>
        have ⟨hcd, hr⟩ := List.mem_ite_nil_right.mp hr
        rw [List.mem_singleton.mp hr] at h
        exact hcd ▸ .literal h
    | anyChar =>
      cases cs with
      | nil => simp [Token.rests] at hr
      | cons d cs =>
        have ⟨hd, hr⟩ := List.mem_ite_nil_right.mp hr
        rw [List.mem_singleton.mp hr] at h
        exact .anyChar hd h
    | oneOf negated ranges =>
      cases cs with
      | nil => simp [Token.rests] at hr
      | cons d cs =>
        have ⟨⟨hd, hranges⟩, hr⟩ := List.mem_ite_nil_right.mp hr
        rw [List.mem_singleton.mp hr] at h
        cases negated with
        | false => exact .inside hd (inRanges_iff.mp (by simpa using hranges)) h
        | true =>
          refine .outside hd (fun hin => ?_) h
          rw [inRanges_iff.mpr hin] at hranges
          contradiction

theorem suffix_of_mem_rests {t : Token} {cs r : List Char} (h : r ∈ t.rests cs) : r <:+ cs := by
  cases t with
  | run =>
    obtain ⟨taken, _, rfl⟩ := mem_afterRun.mp h
    exact List.suffix_append _ _
  | directories =>
    rcases List.mem_cons.mp h with rfl | h
    · exact List.suffix_refl _
    · obtain ⟨taken, rfl⟩ := mem_afterSlashes.mp h
      exact ⟨taken ++ ['/'], by simp⟩
  | remainder =>
    obtain rfl := List.mem_singleton.mp h
    exact List.nil_suffix
  | literal | anyChar | oneOf =>
    cases cs with
    | nil => simp [Token.rests] at h
    | cons d cs =>
      rw [List.mem_singleton.mp (List.mem_ite_nil_right.mp h).2]
      exact List.suffix_cons _ _

theorem eq_of_suffix_of_length {text a b : List Char} (ha : a <:+ text) (hb : b <:+ text)
    (hlen : a.length = b.length) : a = b := by
  rcases List.suffix_or_suffix_of_suffix ha hb with h | h
  · exact h.eq_of_length hlen
  · exact (h.eq_of_length hlen.symm).symm

/-- One more rest: where its length is kept already, so is the rest itself. -/
theorem mem_keep_iff {text q r : List Char} {kept : List (List Char)} (hq : q <:+ text)
    (hkept : ∀ k ∈ kept, k <:+ text) :
    r ∈ (if kept.any (·.length == q.length) then kept else q :: kept) ↔ r = q ∨ r ∈ kept := by
  split
  next hany =>
    have ⟨k, hk, hlen⟩ := List.any_eq_true.mp hany
    have hkq : k = q := eq_of_suffix_of_length (hkept k hk) hq (by simpa using hlen)
    rw [iff_or_self]
    intro hr
    rwa [hr, ← hkq]
  next => exact List.mem_cons

theorem mem_distinct {text : List Char} {rests : List (List Char)}
    (h : ∀ r ∈ rests, r <:+ text) {r : List Char} : r ∈ distinct rests ↔ r ∈ rests := by
  suffices hfold : ∀ kept : List (List Char), (∀ k ∈ kept, k <:+ text) →
      (r ∈ rests.foldl (fun kept r =>
        if kept.any (·.length == r.length) then kept else r :: kept) kept ↔
        r ∈ kept ∨ r ∈ rests) by
    simpa [distinct] using hfold [] (by simp)
  induction rests with
  | nil => simp
  | cons q rest ih =>
    intro kept hkept
    have hq : q <:+ text := h q List.mem_cons_self
    have hmore : ∀ k ∈ (if kept.any (·.length == q.length) then kept else q :: kept),
        k <:+ text := by
      intro k hk
      cases (mem_keep_iff hq hkept).mp hk with
      | inl heq => exact heq ▸ hq
      | inr hk => exact hkept k hk
    rw [List.foldl_cons, ih (fun r hr => h r (List.mem_cons_of_mem _ hr)) _ hmore,
      mem_keep_iff hq hkept, List.mem_cons, or_assoc, or_left_comm]

theorem matchTokens_iff {text : List Char} {ts : List Token} {rests : List (List Char)}
    (h : ∀ r ∈ rests, r <:+ text) :
    matchTokens ts rests = true ↔ ∃ r ∈ rests, Matches ts r := by
  induction ts generalizing rests with
  | nil =>
    rw [matchTokens, List.any_eq_true]
    constructor
    · intro ⟨r, hr, hnil⟩
      exact ⟨r, hr, List.isEmpty_iff.mp hnil ▸ .nil⟩
    · intro ⟨r, hr, hm⟩
      cases hm
      exact ⟨[], hr, rfl⟩
  | cons t ts ih =>
    have hnext : ∀ r ∈ rests.flatMap t.rests, r <:+ text := by
      intro r hr
      have ⟨q, hq, hrq⟩ := List.mem_flatMap.mp hr
      exact (suffix_of_mem_rests hrq).trans (h q hq)
    rw [matchTokens, ih fun r hr => hnext r ((mem_distinct hnext).mp hr)]
    simp only [mem_distinct hnext, List.mem_flatMap, matches_cons_iff]
    constructor
    · intro ⟨r, ⟨q, hq, hr⟩, hm⟩
      exact ⟨q, hq, r, hr, hm⟩
    · intro ⟨q, hq, r, hr, hm⟩
      exact ⟨r, ⟨q, hq, hr⟩, hm⟩

theorem Pattern.matches_iff (p : Pattern) (text : String) :
    p.matches text = true ↔ p.Matches text := by
  have hsuffix : ∀ r ∈ [text.toList], r <:+ text.toList := by simp
  rw [Pattern.matches, matchTokens_iff hsuffix]
  simp [Pattern.Matches]

end Sidecar.Glob
