import Sidecar.Proofs.Spelling

/-! The operations on paths as operations on their parts, for relative paths and paths with `..`
as well: the directory drops the last part, a new file name takes the place of the last. -/

namespace Sidecar.Path

theorem Part.ofInner?_eq_some_name_iff {s n : String} :
    Part.ofInner? s = some (.name n) ↔ s = n ∧ n ≠ "" ∧ n ≠ "." ∧ n ≠ ".." := by
  unfold ofInner?
  constructor
  · intro h
    split at h
    · contradiction
    next hvoid =>
      split at h
      · simp at h
      next hup =>
        rw [not_or] at hvoid
        obtain rfl : s = n := Part.name.inj (Option.some.inj h)
        exact ⟨rfl, hvoid.1, hvoid.2, hup⟩
  · intro ⟨hs, hempty, hdot, hup⟩
    rw [hs, if_neg (not_or.mpr ⟨hempty, hdot⟩), if_neg hup]

theorem Part.ofFirst_eq_name_iff {s n : String} :
    Part.ofFirst s = .name n ↔ s = n ∧ n ≠ "" ∧ n ≠ "." ∧ n ≠ ".." := by
  unfold ofFirst
  constructor
  · intro h
    split at h
    · contradiction
    next hempty =>
      split at h
      · contradiction
      next hdot =>
        split at h
        · contradiction
        next hup =>
          obtain rfl : s = n := Part.name.inj h
          exact ⟨rfl, hempty, hdot, hup⟩
  · intro ⟨hs, hempty, hdot, hup⟩
    rw [hs, if_neg hempty, if_neg hdot, if_neg hup]

/-- The parts that are names are segments that say something. -/
theorem mem_segments_of_mem_parts {p : Path} {n : String} (h : .name n ∈ p.parts) :
    n ∈ p.segments ∧ n ≠ "" ∧ n ≠ "." ∧ n ≠ ".." := by
  obtain ⟨first, rest, hs⟩ := p.exists_segments
  by_cases hp : p.text = ""
  · simp [parts, hp] at h
  · rw [parts_eq hp hs, List.mem_cons, List.mem_filterMap] at h
    rw [hs]
    cases h with
    | inl hfirst =>
      obtain ⟨rfl, hne⟩ := Part.ofFirst_eq_name_iff.mp hfirst.symm
      exact ⟨List.mem_cons_self, hne⟩
    | inr hinner =>
      obtain ⟨s, hmem, hpart⟩ := hinner
      obtain ⟨rfl, hne⟩ := Part.ofInner?_eq_some_name_iff.mp hpart
      exact ⟨List.mem_cons_of_mem _ hmem, hne⟩

theorem name_of_mem_parts {p : Path} {n : String} (h : .name n ∈ p.parts) :
    n ≠ "" ∧ n ≠ "." ∧ n ≠ ".." ∧ '/' ∉ n.toList := by
  obtain ⟨hsegment, hempty, hdot, hup⟩ := mem_segments_of_mem_parts h
  exact ⟨hempty, hdot, hup, Text.not_mem_toList_of_mem_piecesOf hsegment⟩

theorem here_not_mem_tail_parts (p : Path) : .here ∉ p.parts.tail := by
  unfold Path.parts
  split
  · simp
  · split
    · simp
    · rw [List.tail_cons, List.mem_filterMap]
      rintro ⟨s, _, hs⟩
      unfold Path.Part.ofInner? at hs
      split at hs
      · contradiction
      · split at hs <;> simp at hs

theorem fileName?_eq_some_iff {p : Path} {name : String} :
    p.fileName? = some name ↔ ∃ above, p.parts = above ++ [.name name] := by
  unfold fileName?
  rw [← List.getLast?_eq_some_iff]
  constructor
  · intro h
    split at h
    next n hlast => rw [hlast, Option.some.inj h]
    next => contradiction
  · intro h
    rw [h]

/-- A list of segments without the void ones at its end. -/
def trimEnd (segments : List String) : List String :=
  (segments.reverse.dropWhile fun s => s = "" ∨ s = ".").reverse

theorem withoutVoidEnd_cons (first : String) (rest : List String) :
    withoutVoidEnd (first :: rest) = first :: trimEnd rest :=
  rfl

theorem exists_append_trimEnd (segments : List String) :
    ∃ ending, segments = trimEnd segments ++ ending ∧ plain ending = [] := by
  refine ⟨(segments.reverse.takeWhile fun s => s = "" ∨ s = ".").reverse, ?_, ?_⟩
  · rw [trimEnd, ← List.reverse_append, List.takeWhile_append_dropWhile, List.reverse_reverse]
  · rw [plain, List.filter_eq_nil_iff]
    intro s hs
    have := (List.all_eq_true.mp List.all_takeWhile) s (List.mem_reverse.mp hs)
    simp only [decide_eq_true_eq] at this ⊢
    exact fun hne => this.elim hne.1 hne.2

theorem plain_trimEnd (segments : List String) : plain (trimEnd segments) = plain segments := by
  have ⟨ending, hs, hvoid⟩ := exists_append_trimEnd segments
  conv => rhs; rw [hs, plain_append, hvoid, List.append_nil]

theorem mem_of_mem_trimEnd {s : String} {segments : List String} (h : s ∈ trimEnd segments) :
    s ∈ segments := by
  have ⟨ending, hs, _⟩ := exists_append_trimEnd segments
  rw [hs]
  exact List.mem_append_left _ h

/-- The last segment that is left says something. -/
theorem not_void_of_trimEnd {segments before : List String} {last : String}
    (h : trimEnd segments = before ++ [last]) : ¬(last = "" ∨ last = ".") := by
  have hhead : (segments.reverse.dropWhile fun s => s = "" ∨ s = ".").head? = some last := by
    rw [← List.getLast?_reverse, ← trimEnd, h, List.getLast?_concat]
  have := List.head?_dropWhile_not (fun s => decide (s = "" ∨ s = ".")) segments.reverse
  rw [hhead] at this
  simpa using this

/-- Void segments have no part. -/
theorem filterMap_plain (segments : List String) :
    (plain segments).filterMap Part.ofInner? = segments.filterMap Part.ofInner? := by
  induction segments with
  | nil => rfl
  | cons s rest ih =>
    by_cases hvoid : s = "" ∨ s = "."
    · rw [plain_cons_void rest hvoid, ih, List.filterMap_cons_none (by simp [Part.ofInner?, hvoid])]
    · rw [plain_cons_name rest hvoid, List.filterMap_cons, List.filterMap_cons, ih]

theorem filterMap_trimEnd (segments : List String) :
    (trimEnd segments).filterMap Part.ofInner? = segments.filterMap Part.ofInner? := by
  rw [← filterMap_plain, plain_trimEnd, filterMap_plain]

theorem filterMap_concat (segments : List String) {last : String}
    (h : ¬(last = "" ∨ last = ".")) : ∃ part, (segments ++ [last]).filterMap Part.ofInner? =
      segments.filterMap Part.ofInner? ++ [part] := by
  rw [List.filterMap_append]
  by_cases hup : last = ".."
  · exact ⟨.parent, by simp [hup, Part.ofInner?]⟩
  · exact ⟨.name last, by simp [hup, h, Part.ofInner?]⟩

/-- Behind the first segment the directory has what is left before the last segment that says
something. -/
theorem directory_eq {p : Path} {first last : String} {rest before : List String}
    (hs : p.segments = first :: rest) (hrest : trimEnd rest = before ++ [last]) :
    p.directory = if first = "" ∧ trimEnd before = [] then ⟨"/"⟩
      else ⟨Text.joinedBy "/" (first :: trimEnd before)⟩ := by
  have hkept : withoutVoidEnd (first :: (before ++ [last])).dropLast = first :: trimEnd before := by
    rw [← List.cons_append, List.dropLast_concat, withoutVoidEnd_cons]
  rw [directory, hs, withoutVoidEnd_cons, hrest]
  cases hbefore : before ++ [last] with
  | nil => simp at hbefore
  | cons second more =>
    rw [hbefore] at hkept
    simp only [hkept]
    split
    next h => rw [if_pos (by simpa using h)]
    next h => rw [if_neg (by simpa using h)]

theorem directory_of_trimEnd_eq_nil {p : Path} {first : String} {rest : List String}
    (hs : p.segments = first :: rest) (hrest : trimEnd rest = []) : p.directory = ⟨""⟩ := by
  rw [directory, hs, withoutVoidEnd_cons, hrest]

theorem parts_joinedBy {first : String} {rest : List String}
    (hslash : ∀ s ∈ first :: rest, '/' ∉ s.toList) (hne : first :: rest ≠ [""]) :
    (⟨Text.joinedBy "/" (first :: rest)⟩ : Path).parts =
      .ofFirst first :: rest.filterMap Part.ofInner? := by
  have hs : (⟨Text.joinedBy "/" (first :: rest)⟩ : Path).segments = first :: rest := by
    rw [segments, Text.joinedBy_eq_intercalate,
      Text.piecesOf_intercalate hslash (List.cons_ne_nil first rest)]
  refine parts_eq ?_ hs
  intro hvoid
  rw [segments, hvoid] at hs
  exact hne hs.symm

theorem parts_directory (p : Path) : p.directory.parts = p.parts.dropLast := by
  by_cases hp : p.text = ""
  · rw [show p = ⟨""⟩ from congrArg Path.mk hp]
    decide
  · have ⟨first, rest, hs⟩ := p.exists_segments
    rw [parts_eq hp hs, ← filterMap_trimEnd]
    -- The last part is that of the last segment which is not void, else that of the first.
    rcases List.eq_nil_or_concat (trimEnd rest) with hnil | ⟨before, last, hlast⟩
    · rw [directory_of_trimEnd_eq_nil hs hnil, hnil]
      rfl
    · rw [List.concat_eq_append] at hlast
      have ⟨part, hpart⟩ := filterMap_concat before (not_void_of_trimEnd hlast)
      rw [directory_eq hs hlast, hlast, hpart, ← List.cons_append, List.dropLast_concat,
        ← filterMap_trimEnd before]
      split
      next hroot =>
        rw [hroot.1, hroot.2]
        decide
      next hne =>
        refine parts_joinedBy ?_ (by simpa using hne)
        intro s hmem
        have hsegment : s ∈ p.segments := by
          rw [hs]
          rcases List.mem_cons.mp hmem with rfl | hmem
          · exact List.mem_cons_self
          · have hbefore : s ∈ trimEnd rest :=
              hlast ▸ List.mem_append_left _ (mem_of_mem_trimEnd hmem)
            exact List.mem_cons_of_mem _ (mem_of_mem_trimEnd hbefore)
        exact Text.not_mem_toList_of_mem_piecesOf hsegment

theorem parts_join {p : Path} {q : String} (hp : p.text ≠ "") (hq : q.toList.head? ≠ some '/') :
    (p.join q).parts = p.parts ++ (Text.piecesOf '/' q).filterMap Part.ofInner? := by
  rw [join, if_neg hq, parts_child hp]

/-- A name put behind a path is its last part, also where the path is empty. -/
theorem parts_join_name (p : Path) {name : String}
    (hname : name ≠ "" ∧ name ≠ "." ∧ name ≠ ".." ∧ '/' ∉ name.toList) :
    (p.join name).parts = p.parts ++ [.name name] := by
  have hhead : name.toList.head? ≠ some '/' := fun h => hname.2.2.2 (List.mem_of_head? h)
  have ⟨hempty, hdot, hup, hslash⟩ := hname
  rw [join, if_neg hhead]
  by_cases hp : p.text = ""
  · have hs : (⟨name⟩ : Path).segments = [name] := by
      rw [segments, Text.piecesOf, Text.pieces_eq_singleton hslash, List.map_singleton,
        String.ofList_toList]
    rw [child, if_pos (.inl hp), hp, String.empty_append, parts_eq hempty hs,
      Part.ofFirst_eq_name_iff.mpr ⟨rfl, hempty, hdot, hup⟩]
    simp [parts, hp]
  · rw [parts_child_name hp hslash, Part.ofInner?_eq_some_name_iff.mpr ⟨rfl, hempty, hdot, hup⟩]
    rfl

theorem parts_withFileName {p : Path} {above : List Part} {old name : String}
    (h : p.parts = above ++ [.name old])
    (hname : name ≠ "" ∧ name ≠ "." ∧ name ≠ ".." ∧ '/' ∉ name.toList) :
    (p.withFileName name).parts = above ++ [.name name] := by
  have hfile : p.fileName? = some old := fileName?_eq_some_iff.mpr ⟨above, h⟩
  simp only [withFileName, hfile]
  rw [parts_join_name _ hname, parts_directory, h, List.dropLast_concat]

end Sidecar.Path
