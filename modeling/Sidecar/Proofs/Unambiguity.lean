import Sidecar.Proofs.Arguments

/-! Arguments spell one list of items: no argument can be read in two ways. -/

namespace Sidecar.CommandLine

theorem Valued.notMem_name (o : Valued) : '=' ∉ o.name.toList := by
  cases o <;> decide

theorem Switch.notMem_name (s : Switch) : '=' ∉ s.name.toList := by
  cases s <;> decide

theorem Valued.name_injective {o other : Valued} (h : o.name = other.name) : o = other := by
  revert h
  cases o <;> cases other <;> decide

theorem Switch.name_injective {s other : Switch} (h : s.name = other.name) : s = other := by
  revert h
  cases s <;> cases other <;> decide

theorem Valued.name_ne (o : Valued) (s : Switch) : o.name ≠ s.name := by
  cases o <;> cases s <;> decide

theorem splitLong_name {name : String} (h : '=' ∉ name.toList) :
    splitLong name.toList = (name, none) := by
  have hall : ∀ c ∈ name.toList, decide (c ≠ '=') = true := fun c hc =>
    decide_eq_true fun heq => h (heq ▸ hc)
  simp only [splitLong, List.takeWhile_eq_self_iff.mpr hall, List.dropWhile_eq_nil_iff.mpr hall,
    String.ofList_toList]

theorem splitLong_name_value {name : String} (h : '=' ∉ name.toList) (v : String) :
    splitLong (name.toList ++ '=' :: v.toList) = (name, some v) := by
  have hall : ∀ c ∈ name.toList, decide (c ≠ '=') = true := fun c hc =>
    decide_eq_true fun heq => h (heq ▸ hc)
  simp only [splitLong, List.takeWhile_append_of_pos hall, List.dropWhile_append_of_pos hall]
  simp

/-- An argument that starts with two hyphens says what its name and its value say. -/
theorem Says.long_cases {said : List Item} {arg : String} {cs : List Char} (h : Says said arg)
    (harg : arg.toList = '-' :: '-' :: cs) :
    (∃ o v, splitLong cs = (Valued.name o, some v) ∧ said = [.valued o v]) ∨
      ∃ s, splitLong cs = (Switch.name s, none) ∧ said = [.switch s] := by
  cases h with
  | joined o v =>
    obtain rfl : o.name.toList ++ '=' :: v.toList = cs := by simpa using harg
    exact .inl ⟨o, v, splitLong_name_value o.notMem_name v, rfl⟩
  | long s =>
    obtain rfl : s.name.toList = cs := by simpa using harg
    exact .inr ⟨s, splitLong_name s.notMem_name, rfl⟩
  | letters letters ss hletters =>
    obtain rfl : letters = '-' :: cs := by simpa using harg
    cases ss <;> simp [Switch.ofLetter?] at hletters

/-- Any other argument that says something has a switch for each of its letters. -/
theorem Says.letters_of_not_long {said : List Item} {arg : String} (h : Says said arg)
    (hlong : ∀ cs, arg.toList ≠ '-' :: '-' :: cs) :
    ∃ (cs : List Char) (ss : List Switch), arg.toList = '-' :: cs ∧
      cs.map Switch.ofLetter? = ss.map some ∧ said = ss.map .switch := by
  cases h with
  | joined o v => exact absurd (by simp) (hlong (o.name.toList ++ '=' :: v.toList))
  | long s => exact absurd (by simp) (hlong s.name.toList)
  | letters cs ss hletters => exact ⟨cs, ss, by simp, hletters, rfl⟩

theorem Says.unique {said other : List Item} {arg : String} (h : Says said arg)
    (hother : Says other arg) : said = other := by
  by_cases hlong : ∃ cs, arg.toList = '-' :: '-' :: cs
  · have ⟨cs, harg⟩ := hlong
    rcases h.long_cases harg with ⟨o, v, hsplit, rfl⟩ | ⟨s, hsplit, rfl⟩ <;>
      rcases hother.long_cases harg with ⟨o', v', hsplit', rfl⟩ | ⟨s', hsplit', rfl⟩ <;>
      have hsame := Prod.mk.inj (hsplit.symm.trans hsplit')
    · rw [Valued.name_injective hsame.1, Option.some.inj hsame.2]
    · exact absurd hsame.1 (o.name_ne s')
    · exact absurd hsame.1.symm (o'.name_ne s)
    · rw [Switch.name_injective hsame.1]
  · have hlong : ∀ cs, arg.toList ≠ '-' :: '-' :: cs := fun cs harg => hlong ⟨cs, harg⟩
    have ⟨cs, ss, harg, hletters, hsaid⟩ := h.letters_of_not_long hlong
    have ⟨cs', ss', harg', hletters', hother⟩ := hother.letters_of_not_long hlong
    obtain rfl : cs = cs' := List.tail_eq_of_cons_eq (harg.symm.trans harg')
    have hss : ss.map some = ss'.map some := hletters.symm.trans hletters'
    rw [hsaid, hother, (List.map_inj_right fun _ _ => Option.some.inj).mp hss]

/-- The name of an option alone says nothing without its value. -/
theorem not_says_name {said : List Item} (o : Valued) : ¬Says said ("--" ++ o.name) := by
  intro h
  have harg : ("--" ++ o.name).toList = '-' :: '-' :: o.name.toList := by simp
  have hsplit := splitLong_name o.notMem_name
  rcases h.long_cases harg with ⟨o', v, hsplit', -⟩ | ⟨s, hsplit', -⟩ <;>
    have hsame := Prod.mk.inj (hsplit.symm.trans hsplit')
  · exact absurd hsame.2 (by simp)
  · exact o.name_ne s hsame.1

theorem not_says_dashes {said : List Item} : ¬Says said "--" := by
  intro h
  rcases h.long_cases rfl with ⟨o, v, hsplit, -⟩ | ⟨s, hsplit, -⟩
  · exact absurd (Prod.mk.inj hsplit).2 (by simp)
  · exact absurd (Prod.mk.inj hsplit).1 (by cases s <;> decide)

/-- Arguments spell at most one list of items. -/
theorem SpelledBy.unique {items others : List Item} {args : List String}
    (h : SpelledBy items args) (hother : SpelledBy others args) : items = others := by
  induction h generalizing others with
  | nil =>
    cases hother
    rfl
  | stop =>
    generalize hdashes : "--" = arg at hother
    cases hother with
    | stop => rfl
    | alone hsaid => exact absurd (hdashes ▸ hsaid) not_says_dashes
  | alone hsaid _ ih =>
    cases hother with
    | stop => exact absurd hsaid not_says_dashes
    | alone hsaid' hmore => rw [hsaid.unique hsaid', ih hmore]
    | apart o => exact absurd hsaid (not_says_name o)
  | @apart _ _ o v _ _ ih =>
    generalize hname : "--" ++ o.name = arg at hother
    cases hother with
    | alone hsaid => exact absurd (hname ▸ hsaid) (not_says_name o)
    | apart o' _ _ hmore =>
      obtain rfl := Valued.name_injective ((String.append_right_inj _).mp hname)
      rw [ih hmore]

end Sidecar.CommandLine
