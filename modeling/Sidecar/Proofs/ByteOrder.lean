import Mathlib
import Sidecar.Proofs.Naming

/-! The order of bytes. Names are compared character by character, which comes to the same as
comparing their UTF-8 bytes: of two characters the lesser has the lesser bytes, and neither's begin
those of the other. -/

namespace Sidecar

namespace Text

def bytesOf (s : String) : List UInt8 :=
  s.toUTF8.data.toList

/-- One text is before another in the order of bytes. -/
def BytesLt (a b : String) : Prop :=
  List.Lex (· < ·) (bytesOf a) (bytesOf b)

theorem bytesOf_eq (s : String) : bytesOf s = s.toList.flatMap String.utf8EncodeChar := by
  conv => lhs; rw [← String.ofList_toList (s := s)]
  rw [bytesOf, String.toUTF8_eq_toByteArray, String.toByteArray_ofList, List.utf8Encode,
    List.data_toByteArray]

/-- One byte of two encodings: what follows counts only where the bytes are the same. -/
theorem lex_ofNat_cons {a b : Nat} {xs ys : List UInt8} (hb : b < 256) (hab : a ≤ b)
    (hrest : a = b → List.Lex (· < ·) xs ys) :
    List.Lex (· < ·) (UInt8.ofNat a :: xs) (UInt8.ofNat b :: ys) := by
  rcases Nat.lt_or_eq_of_le hab with hlt | rfl
  · apply List.Lex.rel
    rw [UInt8.lt_iff_toNat_lt, UInt8.toNat_ofNat_of_lt' (Nat.lt_trans hlt hb),
      UInt8.toNat_ofNat_of_lt' hb]
    exact hlt
  · exact .cons (hrest rfl)

/-- A character of more bytes opens with a greater one; of characters with as many bytes the first
byte that differs is the lesser one's. -/
theorem lex_utf8EncodeChar {c d : Char} (h : c < d) (xs ys : List UInt8) :
    List.Lex (· < ·) (String.utf8EncodeChar c ++ xs) (String.utf8EncodeChar d ++ ys) := by
  have hlt : c.val.toNat < d.val.toNat := h
  have hmax : d.val.toNat < 0x110000 := by
    have := d.valid
    simp only [UInt32.isValidChar, Nat.isValidChar] at this
    omega
  unfold String.utf8EncodeChar
  generalize c.val.toNat = a at hlt
  generalize d.val.toNat = b at hlt hmax
  dsimp only
  split_ifs <;> repeat refine lex_ofNat_cons (by omega) (by omega) fun _ => ?_
  all_goals omega

theorem bytesLt_of_lt {a b : String} (h : a < b) : BytesLt a b := by
  rw [String.lt_iff_toList_lt] at h
  rw [BytesLt, bytesOf_eq, bytesOf_eq]
  generalize a.toList = cs at h
  generalize b.toList = ds at h
  induction h with
  | @nil d ds =>
    obtain ⟨byte, more, hd⟩ := List.exists_cons_of_ne_nil (String.utf8EncodeChar_ne_nil (c := d))
    rw [List.flatMap_cons, hd]
    exact .nil
  | rel hcd => exact lex_utf8EncodeChar hcd _ _
  | @cons c _ _ _ ih =>
    rw [List.flatMap_cons, List.flatMap_cons]
    exact List.Lex.append_left _ ih _

theorem bytesLt_empty {b : String} (h : b ≠ "") : BytesLt "" b := by
  apply bytesLt_of_lt
  rw [String.lt_iff_toList_lt]
  obtain ⟨c, cs, hb⟩ := List.exists_cons_of_ne_nil (mt String.toList_eq_nil_iff.mp h)
  rw [hb]
  exact .nil

/-- The order of relative paths: component by component, each by its bytes. -/
def ComponentsLt (a b : String) : Prop :=
  List.Lex BytesLt (piecesOf '/' a) (piecesOf '/' b)

/-- Of two paths given by their names, the one whose names come first does. -/
theorem componentsLt_intercalate {xs ys : List String} (h : List.Lex (· < ·) xs ys)
    (hxs : ∀ n ∈ xs, '/' ∉ n.toList) (hys : ∀ n ∈ ys, n ≠ "" ∧ '/' ∉ n.toList) :
    ComponentsLt ("/".intercalate xs) ("/".intercalate ys) := by
  have hne : ys ≠ [] := by
    rintro rfl
    contradiction
  rw [ComponentsLt, piecesOf_intercalate (fun n hn => (hys n hn).2) hne]
  by_cases hnil : xs = []
  · obtain ⟨n, more, rfl⟩ := List.exists_cons_of_ne_nil hne
    rw [hnil, show piecesOf '/' ("/".intercalate []) = [""] by decide]
    exact .rel (bytesLt_empty (hys n List.mem_cons_self).1)
  · rw [piecesOf_intercalate hxs hnil]
    exact List.Lex.imp (fun _ _ => bytesLt_of_lt) _ _ h

end Text

namespace Path

theorem partsLe_append_left (common as bs : List Part) :
    partsLe (common ++ as) (common ++ bs) = partsLe as bs := by
  induction common with
  | nil => rfl
  | cons part common ih => rw [List.cons_append, List.cons_append, partsLe, if_pos rfl, ih]

theorem lex_of_partsLe {xs ys : List String}
    (h : partsLe (xs.map .name) (ys.map .name) = true) (hne : xs ≠ ys) :
    List.Lex (· < ·) xs ys := by
  induction xs generalizing ys with
  | nil =>
    cases ys with
    | nil => contradiction
    | cons => exact .nil
  | cons x xs ih =>
    cases ys with
    | nil => contradiction
    | cons y ys =>
      rw [List.map_cons, List.map_cons, partsLe] at h
      by_cases hxy : x = y
      · subst hxy
        rw [if_pos rfl] at h
        exact .cons (ih h fun heq => hne (congrArg _ heq))
      · rw [if_neg (by simpa using hxy), Part.le, decide_eq_true_eq] at h
        exact .rel (lt_of_le_of_ne h hxy)

end Path

/-- Paths under one root in their order have relative paths in the order of their bytes. -/
theorem componentsLt_of_le {root p q : Path} {above : Location} (hroot : root.Spells above)
    {a b : String} (hp : relativePath root p = .ok a) (hq : relativePath root q = .ok b)
    (hle : p.le q = true) (hne : a ≠ b) : Text.ComponentsLt a b := by
  obtain ⟨xs, hxs, rfl⟩ := (relativePath_eq_ok_iff hroot p a).mp hp
  obtain ⟨ys, hys, rfl⟩ := (relativePath_eq_ok_iff hroot q b).mp hq
  refine Text.componentsLt_intercalate ?_ (fun n hn => (hxs.name_below n hn).2) hys.name_below
  rw [Path.le, (spells_append_iff hroot).mp hxs, (spells_append_iff hroot).mp hys,
    Path.partsLe_append_left] at hle
  exact Path.lex_of_partsLe hle fun heq => hne (congrArg _ heq)

end Sidecar
