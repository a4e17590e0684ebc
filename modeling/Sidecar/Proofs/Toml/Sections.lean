import Mathlib
import Sidecar.Proofs.Toml.Outline

/-! Sections of a TOML document. What stands under the header of a section is what the document
comes to, whatever stands around it, and a name that no clause leads to stays free. -/

namespace Sidecar.Toml

/-- A name is free, or is that of a table with whatever header or without one. -/
def Names.IsSection {α : Type} (names : Names α) (s : String) : Prop :=
  names [s] = none ∨ names [s] = some .table ∨ names [s] = some .parent ∨ names [s] = some .dotted

instance {α : Type} [DecidableEq α] (names : Names α) (s : String) :
    Decidable (names.IsSection s) :=
  inferInstanceAs (Decidable (_ ∨ _))

def Clause.path {α : Type} : Clause α → List String
  | .header p | .element p | .assignment p _ => p

/-- What the path of a clause stands for. -/
def Clause.standing {α : Type} : Clause α → Standing α
  | .header _ => .table
  | .element _ => .tables
  | .assignment _ a => .value a

namespace Outline

variable {α : Type} {bounded : Prop} {o : Outline α} {x : Clause α} {xs ys : List (Clause α)}
  {p r : List String} {st : Standing α} {s f : String} {a : α}

/-- The whole path of a clause. -/
def place (o : Outline α) : Clause α → List String
  | .header p | .element p => p
  | .assignment p _ => o.current ++ p

/-- Clauses give a field: under the header of its section, with only fields in between. -/
def Gives (xs : List (Clause α)) (s f : String) (a : α) : Prop :=
  ∃ front fields behind, xs = front ++ .header [s] :: (fields ++ .assignment [f] a :: behind) ∧
    ∀ x ∈ fields, ∃ p b, x = .assignment p b

/-- No clause leads to a field, and its section is a table if anything. -/
def LeavesOut (o : Outline α) (s f : String) : List (Clause α) → Prop
  | [] => True
  | x :: xs => (¬[s, f] <+: o.place x ∧ (o.place x = [s] → x.standing = .table)) ∧
      (o.add x).LeavesOut s f xs

/-! ### Names that stay free -/

theorem tell_cases {names : Names α} {above : List String} {way what : Standing α}
    (h : names.tell above p way what r = some st) :
    names r = some st ∨ r <+: p ∧ (st = way ∨ r = p ∧ st = what) := by
  unfold Names.tell at h
  split at h
  next heq => exact .inr ⟨heq ▸ List.prefix_rfl, .inr ⟨heq, (Option.some.inj h).symm⟩⟩
  next =>
    split at h
    next hand => exact .inr ⟨hand.1.2.1, .inl (Option.some.inj h).symm⟩
    next => exact .inl h

/-- A name that is given out was so before, or is on the way to what the clause says. -/
theorem names_add_cases (h : (o.add x).names r = some st) : o.names r = some st ∨
    r <+: o.place x ∧ (st = .parent ∨ st = .dotted ∨ r = o.place x ∧ st = x.standing) := by
  cases x with
  | header p =>
    obtain h | ⟨hle, h | h⟩ := tell_cases h
    · exact .inl h
    · exact .inr ⟨hle, .inl h⟩
    · exact .inr ⟨hle, .inr (.inr h)⟩
  | element p =>
    obtain h | ⟨hle, h | h⟩ := tell_cases h
    · unfold Names.forget at h
      split at h
      next => contradiction
      next => exact .inl h
    · exact .inr ⟨hle, .inl h⟩
    · exact .inr ⟨hle, .inr (.inr h)⟩
  | assignment p a =>
    obtain h | ⟨hle, h | h⟩ := tell_cases h
    · exact .inl h
    · exact .inr ⟨hle, .inr (.inl h)⟩
    · exact .inr ⟨hle, .inr (.inr h)⟩

theorem LeavesOut.names_after (h : o.LeavesOut s f xs) (hfree : o.names [s, f] = none)
    (hsection : o.names.IsSection s) :
    (o.after xs).names [s, f] = none ∧ (o.after xs).names.IsSection s := by
  induction xs generalizing o with
  | nil => exact ⟨hfree, hsection⟩
  | cons x xs ih =>
    obtain ⟨⟨hnot, hplace⟩, hrest⟩ := h
    apply ih hrest
    · cases hnames : (o.add x).names [s, f] with
      | none => rfl
      | some st =>
        obtain h | ⟨hle, -⟩ := names_add_cases hnames
        · rw [hfree] at h
          contradiction
        · exact absurd hle hnot
    · cases hnames : (o.add x).names [s] with
      | none => exact .inl hnames
      | some st =>
        obtain h | ⟨-, rfl | rfl | ⟨heq, rfl⟩⟩ := names_add_cases hnames
        · unfold Names.IsSection at hsection ⊢
          rw [h] at hsection
          rwa [hnames]
        · exact .inr (.inr (.inl hnames))
        · exact .inr (.inr (.inr hnames))
        · exact .inr (.inl (hnames.trans (congrArg some (hplace heq.symm))))

/-! ### Names that stay given out -/

theorem tell_of_some {names : Names α} {above : List String} {way what : Standing α}
    (h : names r = some st) (hne : r ≠ p) : names.tell above p way what r = some st := by
  rw [Names.tell, if_neg hne, h, if_neg (by simp)]

/-- What a name stands for does not change, unless tables under double headers lie above it. -/
theorem Admits.names_add (h : o.Admits bounded x) (hx : o.place x ≠ []) (hr : o.names r = some st)
    (hst : st ≠ .parent ∧ st ≠ .tables)
    (habove : ∀ p, IsBetween [] p r → o.names p ≠ none ∧ o.names p ≠ some .tables) :
    (o.add x).names r = some st := by
  have hne {p : List String} {allowed : Standing α} (hallowed : st ≠ allowed)
      (h : o.names p = none ∨ o.names p = some allowed) : r ≠ p := by
    rintro rfl
    rw [hr] at h
    obtain h | h := h
    · contradiction
    · exact hallowed (Option.some.inj h)
  cases x with
  | header p => exact tell_of_some hr (hne hst.1 h.2)
  | element p =>
    apply tell_of_some _ (hne hst.2 h.2)
    unfold Names.forget
    split
    next hand =>
      obtain ⟨hnone, htables⟩ := habove p ⟨⟨ List.nil_prefix, hx⟩, hand.1, hand.2.symm⟩
      exact absurd h.2 (not_or.mpr ⟨hnone, htables⟩)
    next => exact hr
  | assignment p a => exact tell_of_some hr (hne hst.1 (.inl h.2.2))

theorem admitsAll_append :
    o.AdmitsAll bounded (xs ++ ys) ↔
      o.AdmitsAll bounded xs ∧ (o.after xs).AdmitsAll bounded ys := by
  induction xs generalizing o with
  | nil => exact ⟨fun h => ⟨trivial, h⟩, And.right⟩
  | cons x xs ih => exact (and_congr_right fun _ => ih).trans and_assoc.symm

theorem place_ne_nil (h : x.path ≠ []) : o.place x ≠ [] := by
  cases x with
  | header | element => exact h
  | assignment => exact List.append_ne_nil_of_right_ne_nil _ h

theorem names_add_assignment (o : Outline α) (p : List String) (a : α) :
    (o.add (.assignment p a)).names (o.current ++ p) = some (.value a) :=
  if_pos rfl

/-- A field of a section stays as it is. -/
theorem AdmitsAll.names_after (h : o.AdmitsAll bounded xs) (hxs : ∀ x ∈ xs, x.path ≠ [])
    (hs : o.names [s] = some .table) (hf : o.names [s, f] = some (.value a)) :
    (o.after xs).names [s] = some .table ∧ (o.after xs).names [s, f] = some (.value a) := by
  induction xs generalizing o with
  | nil => exact ⟨hs, hf⟩
  | cons x xs ih =>
    obtain ⟨hx, hxs⟩ := List.forall_mem_cons.mp hxs
    have hplace := place_ne_nil (o := o) hx
    refine ih h.2 hxs (h.1.names_add hplace hs (by simp) ?_) (h.1.names_add hplace hf (by simp) ?_)
    · exact fun p hp => absurd hp (not_isBetween_concat (p := []))
    · intro p hp
      rw [eq_of_isBetween hp, hs]
      simp

/-- Fields do not close the section of a header. -/
theorem AdmitsAll.after_fields (h : o.AdmitsAll bounded xs)
    (hxs : ∀ x ∈ xs, ∃ p b, x = .assignment p b) (hcurrent : o.current = [s])
    (hs : o.names [s] = some .table) :
    (o.after xs).current = [s] ∧ (o.after xs).names [s] = some .table := by
  induction xs generalizing o with
  | nil => exact ⟨hcurrent, hs⟩
  | cons x xs ih =>
    obtain ⟨⟨p, b, rfl⟩, hrest⟩ := List.forall_mem_cons.mp hxs
    refine ih h.2 hrest hcurrent (h.1.names_add ?_ hs (by simp) ?_)
    · simp [place, hcurrent]
    · exact fun p hp => absurd hp (not_isBetween_concat (p := []))

/-- What clauses give under the header of a section is what they come to. -/
theorem Gives.names_after (h : Gives xs s f a) (hadmits : o.AdmitsAll bounded xs)
    (hxs : ∀ x ∈ xs, x.path ≠ []) :
    (o.after xs).names [s] = some .table ∧ (o.after xs).names [s, f] = some (.value a) := by
  obtain ⟨front, fields, behind, rfl, hfields⟩ := h
  obtain ⟨-, hheader, hadmits⟩ := admitsAll_append.mp hadmits
  obtain ⟨hbefore, hfield, hbehind⟩ := admitsAll_append.mp hadmits
  have hopen : ((o.after front).add (.header [s])).names [s] = some .table := if_pos rfl
  obtain ⟨hcurrent, hs⟩ := hbefore.after_fields hfields rfl hopen
  have hgiven : ((((o.after front).add (.header [s])).after fields).add
      (.assignment [f] a)).names [s, f] = some (.value a) := by
    have := names_add_assignment (((o.after front).add (.header [s])).after fields) [f] a
    rwa [hcurrent] at this
  have hkept := hfield.names_add (by simp [place]) hs (by simp)
    fun p hp => absurd hp (not_isBetween_concat (p := []))
  have hpaths : ∀ x ∈ behind, x.path ≠ [] := fun x hx => hxs x (by simp [hx])
  have hafter := hbehind.names_after hpaths hkept hgiven
  simpa [after] using hafter

end Outline

/-! ### Clauses of documents -/

section

variable {bounded : Prop} {x : Clause (List Char)} {xs : List (Clause (List Char))} {cs : List Char}

theorem IsClause.path_ne_nil (h : IsClause bounded x cs) : x.path ≠ [] := by
  cases h with
  | header hkey | element hkey => exact hkey.ne_nil
  | assignment hpair =>
    obtain ⟨front, last, rfl⟩ := hpair.exists_concat
    exact List.concat_ne_nil last front

theorem AreLines.path_ne_nil (h : AreLines bounded xs cs) : ∀ x ∈ xs, x.path ≠ [] := by
  have hline {xs : List (Clause (List Char))} {line : List Char} (h : IsLine bounded xs line) :
      ∀ x ∈ xs, x.path ≠ [] := by
    cases h with
    | blank => simp
    | clause _ hclause => simpa using hclause.path_ne_nil
  induction h with
  | last h => exact hline h
  | more h _ _ ih => exact List.forall_mem_append.mpr ⟨hline h, ih⟩

end

end Sidecar.Toml
