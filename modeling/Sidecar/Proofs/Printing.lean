import Sidecar.Proofs.Rendering
import Sidecar.Summary.Format

/-! Reading undoes printing, for any JSON value and so for the summary of a run that programs read.
-/

namespace Sidecar

namespace Json

/-- A value whose numerals JSON can spell, none of them an integer. -/
inductive Spellable : Json → Prop where
  | null : Spellable .null
  | boolean (b : Bool) : Spellable (.boolean b)
  | integer (n : Int) : Spellable (.integer n)
  | real {n : Numeral} : n.Written n.text → n.isInteger = false → Spellable (.real n)
  | text (s : String) : Spellable (.text s)
  | array {js : List Json} : (∀ j ∈ js, Spellable j) → Spellable (.array js)
  | object {ms : List (String × Json)} : (∀ m ∈ ms, Spellable m.2) → Spellable (.object ms)

theorem toInt_numeralOf (n : Int) : (Record.numeralOf n).toInt = n := by
  have hsize : natOfDigits (Record.numeralOf n).whole = n.natAbs :=
    Record.natOfDigits_toDigits n.natAbs
  rw [Numeral.toInt, hsize]
  by_cases hn : n < 0
  · rw [if_pos (show (Record.numeralOf n).negative = true from decide_eq_true hn)]
    omega
  · rw [if_neg (by simp [Record.numeralOf, hn])]
    omega

theorem takenAs_integerText (n : Int) : TakenAs textOf? (.integer n) (integerText n) := by
  have hinteger : (Record.numeralOf n).isInteger = true := rfl
  have h : TakenAs textOf? _ (integerText n) := takenAs_numeral (Record.written_integerText n)
  rwa [hinteger, if_pos rfl, toInt_numeralOf] at h

theorem memberTaken_prettyMember {m : String × Json} {depth : Nat}
    (h : TakenAs textOf? m.2 (m.2.pretty depth)) :
    MemberTaken textOf? m (prettyMember depth m) := by
  have hspace : IsBlank [' '] := by simp [IsBlank, isSpace]
  have hmember := MemberTaken.mk (quotes_quote m.1).quotedAs isBlank_nil hspace h
  rw [prettyMember, List.append_assoc]
  exact hmember

/-- A value is taken for itself where it is printed, at any depth. -/
theorem Spellable.itemTaken {j : Json} (h : j.Spellable) (depth : Nat) :
    ItemTaken textOf? j (j.pretty depth) := by
  induction h generalizing depth with
  | null =>
    rw [pretty]
    exact ⟨starts_cons _ (by decide), takenAs_null⟩
  | boolean b =>
    rw [pretty]
    exact ⟨by cases b <;> exact starts_cons _ (by decide), takenAs_boolean b⟩
  | integer n =>
    rw [pretty]
    exact ⟨(Record.written_integerText n).starts, takenAs_integerText n⟩
  | @real n hw hreal =>
    have h : TakenAs textOf? _ n.text := takenAs_numeral hw
    rw [hreal, if_neg Bool.false_ne_true] at h
    rw [pretty]
    exact ⟨hw.starts, h⟩
  | text s =>
    rw [pretty]
    exact ⟨(quotes_quote s).isQuoted.starts, takenAs_quoted (quotes_quote s).quotedAs⟩
  | @array js _ ih =>
    obtain ⟨body, hbody, hpretty⟩ := exists_pretty_array depth js
    rw [hpretty]
    refine ⟨starts_cons _ (by decide), takenAs_array hbody ?_⟩
    rw [List.forall₂_map_right_iff, List.forall₂_same]
    exact fun j hj => ih j hj (depth + 1)
  | @object ms _ ih =>
    obtain ⟨body, hbody, hpretty⟩ := exists_pretty_object depth ms
    rw [hpretty]
    refine ⟨starts_cons _ (by decide), takenAs_object hbody ?_⟩
    rw [List.forall₂_map_right_iff, List.forall₂_same]
    exact fun m hm => memberTaken_prettyMember (ih m hm (depth + 1)).2

/-- What is printed is read back as it was. -/
theorem parse?_prettyText {j : Json} (h : j.Spellable) : parse? j.prettyText = some j := by
  have htext : j.prettyText.toList = j.pretty 0 := String.toList_ofList
  have hfuel : 2 * (j.pretty 0).length ≤ 2 * j.prettyText.length + 2 := by
    rw [← htext, String.length_toList]
    exact Nat.le_add_right _ _
  have hnothing : Stops [] := by simp [Stops]
  have htaken := (h.itemTaken 0).2 _ [] hfuel hnothing
  rw [List.append_nil, ← htext] at htaken
  rw [parse?, htaken]
  rfl

end Json

namespace Summary

open Json

theorem spellable_fileJson (f : ProcessedFile) : (fileJson f).Spellable := by
  refine .object fun m hm => ?_
  simp only [List.mem_cons, List.not_mem_nil, or_false] at hm
  rcases hm with rfl | rfl | rfl | rfl | rfl
  · exact .text _
  · exact .text _
  · dsimp only
    split
    · exact .integer _
    · exact .null
  · exact .text _
  · exact .text _

theorem spellable_toJson (r : Report) : (toJson r).Spellable := by
  refine .object fun m hm => ?_
  simp only [List.mem_cons, List.not_mem_nil, or_false] at hm
  rcases hm with rfl | rfl | rfl
  · exact .boolean _
  · refine .array fun j hj => ?_
    obtain ⟨f, _, rfl⟩ := List.mem_map.mp hj
    exact spellable_fileJson f
  · exact .integer _

/-- What programs read of a file. -/
def Tells (f : ProcessedFile) (j : Json) : Prop :=
  ∃ year, j = .object [("path", .text f.path), ("contentId", .text f.contentId), ("year", year),
      ("sha256", .text f.sha256), ("sidecar", .text f.sidecar)] ∧
    (∀ y, f.year = some y → year = .integer y.toInt) ∧ (f.year = none → year = .null)

theorem tells_fileJson (f : ProcessedFile) : Tells f (fileJson f) := by
  refine ⟨_, rfl, fun y hy => ?_, fun hnone => ?_⟩
  · rw [hy]
  · rw [hnone]

/-- The summary for programs is JSON text of one object, which tells whether the run was dry, what
became of each file, in their order, and how many sidecars were written. -/
theorem parse?_jsonText (r : Report) : ∃ files, Json.parse? (jsonText r) =
      some (.object [("dryRun", .boolean r.dryRun), ("files", .array files),
        ("written", .integer (if r.dryRun then 0 else r.files.length))]) ∧
    List.Forall₂ Tells r.files files := by
  refine ⟨r.files.map fileJson, parse?_prettyText (spellable_toJson r), ?_⟩
  rw [List.forall₂_map_right_iff, List.forall₂_same]
  exact fun f _ => tells_fileJson f

end Summary

end Sidecar
