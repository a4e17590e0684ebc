import Mathlib
import Sidecar.Proofs.Toml.Statements

/-! What a TOML document comes to, clause by clause. An outline holds the names that have been given
out and the section that is open. It says which clauses may come next, and the reader takes those.
-/

namespace Sidecar.Toml

structure Outline (α : Type) where
  names : Names α
  /-- The path of the open section. -/
  current : List String

namespace Outline

variable {α : Type}

def start : Outline α :=
  ⟨.nothing, []⟩

/-- What a clause gives out. Names below tables under double headers are those of the last table, so
that a new one starts without any. -/
def add (o : Outline α) : Clause α → Outline α
  | .header p => ⟨o.names.tell [] p .parent .table, p⟩
  | .element p => ⟨(o.names.forget p).tell [] p .parent .tables, p⟩
  | .assignment p a => ⟨o.names.tell o.current (o.current ++ p) .dotted (.value a), o.current⟩

/-- What clauses come to in their order. -/
def after (o : Outline α) (xs : List (Clause α)) : Outline α :=
  xs.foldl add o

/-- A header's path may lead through any table. A table may have one header, which may follow longer
ones. -/
def AdmitsHeader (o : Outline α) (p : List String) (allowed : Standing α) : Prop :=
  (∀ r, IsBetween [] r p → ∀ a, o.names r ≠ some (.value a)) ∧
    (o.names p = none ∨ o.names p = some allowed)

/-- A dotted key may lead through tables without a header of their own. The reader has a bound here
too: the last of them may be no part of a longer header. -/
def AdmitsKey (bounded : Prop) (o : Outline α) (p : List String) : Prop :=
  (∀ r, IsBetween o.current r (o.current ++ p) →
    o.names r = none ∨ o.names r = some .dotted ∨ o.names r = some .parent) ∧
  (bounded → o.names (o.current ++ p.dropLast) ≠ some .parent) ∧
  o.names (o.current ++ p) = none

/-- A clause may come next. -/
def Admits (bounded : Prop) (o : Outline α) : Clause α → Prop
  | .header p => o.AdmitsHeader p .parent
  | .element p => o.AdmitsHeader p .tables
  | .assignment p _ => o.AdmitsKey bounded p

/-- Clauses may come next, one after the other. -/
def AdmitsAll (bounded : Prop) (o : Outline α) : List (Clause α) → Prop
  | [] => True
  | x :: xs => o.Admits bounded x ∧ (o.add x).AdmitsAll bounded xs

section

variable [DecidableEq α] (bounded : Prop) [Decidable bounded]

instance (s : Option (Standing α)) : Decidable (∀ a, s ≠ some (.value a)) :=
  match s with
  | some (.value a) => .isFalse fun h => h a rfl
  | none | some .table | some .parent | some .dotted | some .tables => .isTrue fun _ => by simp

instance (o : Outline α) (p : List String) (allowed : Standing α) :
    Decidable (o.AdmitsHeader p allowed) :=
  inferInstanceAs (Decidable (_ ∧ _))

instance (o : Outline α) (p : List String) : Decidable (o.AdmitsKey bounded p) :=
  inferInstanceAs (Decidable (_ ∧ _))

instance (o : Outline α) (x : Clause α) : Decidable (o.Admits bounded x) :=
  match x with
  | .header _ | .element _ => inferInstanceAs (Decidable (AdmitsHeader ..))
  | .assignment _ _ => inferInstanceAs (Decidable (AdmitsKey ..))

instance (o : Outline α) (xs : List (Clause α)) : Decidable (o.AdmitsAll bounded xs) :=
  go o xs
where
  go (o : Outline α) : (xs : List (Clause α)) → Decidable (o.AdmitsAll bounded xs)
    | [] => .isTrue trivial
    | x :: xs =>
      have := go (o.add x) xs
      inferInstanceAs (Decidable (_ ∧ _))

end

end Outline

/-! ### Names told of different things -/

/-- The same kind of thing, values related. -/
inductive Standing.Rel {α β : Type} (R : α → β → Prop) : Standing α → Standing β → Prop where
  | value {a b} : R a b → Rel R (.value a) (.value b)
  | table : Rel R .table .table
  | parent : Rel R .parent .parent
  | dotted : Rel R .dotted .dotted
  | tables : Rel R .tables .tables

namespace Names

variable {α β : Type} {R : α → β → Prop} {above p q r : List String}

def Rel (R : α → β → Prop) (names : Names α) (names' : Names β) : Prop :=
  ∀ p, Option.Rel (Standing.Rel R) (names p) (names' p)

section

variable {names : Names α} {names' : Names β} {way what : Standing α} {way' what' : Standing β}

theorem Rel.nothing : Rel R nothing nothing :=
  fun _ => .none

theorem Rel.eq_none (h : Rel R names names') (hp : names p = none) : names' p = none := by
  have := h p
  rw [hp] at this
  generalize names' p = o at this ⊢
  cases this
  rfl

theorem Rel.exists_some {s : Standing α} (h : Rel R names names') (hp : names p = some s) :
    ∃ s', names' p = some s' ∧ Standing.Rel R s s' := by
  have := h p
  rw [hp] at this
  generalize names' p = o at this
  cases this with
  | some hs => exact ⟨_, rfl, hs⟩

theorem Rel.not_value (h : Rel R names names') (hp : ∀ a, names p ≠ some (.value a)) (b : β) :
    names' p ≠ some (.value b) := by
  intro hb
  have := h p
  rw [hb] at this
  generalize ho : names p = o at this
  cases this with
  | some hs =>
    cases hs with
    | value => exact hp _ ho

theorem Rel.not_parent (h : Rel R names names') (hp : names p ≠ some .parent) :
    names' p ≠ some .parent := by
  intro hparent
  have := h p
  rw [hparent] at this
  generalize ho : names p = o at this
  cases this with
  | some hs =>
    cases hs with
    | parent => exact hp ho

/-- What a dotted key may lead through. -/
theorem Rel.of_unheaded (h : Rel R names names')
    (hp : names p = none ∨ names p = some .dotted ∨ names p = some .parent) :
    names' p = none ∨ names' p = some .dotted ∨ names' p = some .parent := by
  obtain hp | hp | hp := hp
  · exact .inl (h.eq_none hp)
  · obtain ⟨s, hs, hrel⟩ := h.exists_some hp
    cases hrel
    exact .inr (.inl hs)
  · obtain ⟨s, hs, hrel⟩ := h.exists_some hp
    cases hrel
    exact .inr (.inr hs)

theorem Rel.tell (h : Rel R names names') (hway : Standing.Rel R way way')
    (hwhat : Standing.Rel R what what') :
    Rel R (names.tell above p way what) (names'.tell above p way' what') := by
  intro r
  have hr := h r
  unfold Names.tell
  split
  next => exact .some hwhat
  next =>
    generalize names r = o at hr
    generalize names' r = o' at hr
    cases hr with
    | none =>
      by_cases hbetween : IsBetween above r p
      · rw [if_pos ⟨hbetween, rfl⟩, if_pos ⟨hbetween, rfl⟩]
        exact .some hway
      · rw [if_neg (fun hand => hbetween hand.1), if_neg (fun hand => hbetween hand.1)]
        exact .none
    | some hs =>
      rw [if_neg (by simp), if_neg (by simp)]
      exact .some hs

theorem Rel.forget (h : Rel R names names') : Rel R (names.forget p) (names'.forget p) := by
  intro r
  unfold Names.forget
  split
  next => exact .none
  next => exact h r

end

section

variable {names inner new : Names α} {way what way' what' : Standing α}

theorem isBetween_append : IsBetween p (p ++ r) (p ++ q) ↔ IsBetween [] r q := by
  simp [IsBetween, List.prefix_append_right_inj]

/-- Nothing changes below a path where what is put there has the names that are there already. -/
theorem put_eq_tell (h : ∀ r ≠ [], names (p ++ r) = new r) :
    put names p way what new = names.tell [] p way what := by
  funext r
  rw [put, under]
  split
  next hr =>
    obtain ⟨⟨t, rfl⟩, hne⟩ := hr
    have ht : t ≠ [] := by rintro rfl; simp at hne
    have hbetween : ¬IsBetween [] (p ++ t) p := fun h => by
      have := h.2.1.length_le
      rw [List.length_append] at this
      exact ht (List.length_eq_zero_iff.mp (by omega))
    rw [List.drop_left, tell, if_neg hne, if_neg (fun hand => hbetween hand.1), h t ht]
  next => rfl

theorem put_nothing : put names p way what nothing = (names.forget p).tell [] p way what := by
  funext r
  rw [put, under]
  unfold tell forget
  by_cases hr : p <+: r ∧ r ≠ p
  · have hbetween : ¬IsBetween [] r p := fun h => hr.2 (hr.1.eq_of_length_le h.2.1.length_le).symm
    rw [if_pos hr, if_neg hr.2, if_neg (fun hand => hbetween hand.1), if_pos hr]
    rfl
  · rw [if_neg hr, if_neg hr]

/-- What is told below a path is told of what is put there. -/
theorem put_tell (hq : q ≠ []) : put names p way what (inner.tell [] q way' what') =
    (put names p way what inner).tell p (p ++ q) way' what' := by
  funext r
  by_cases hr : p <+: r ∧ r ≠ p
  · obtain ⟨⟨t, rfl⟩, hne⟩ := hr
    have hand : p <+: p ++ t ∧ p ++ t ≠ p := ⟨List.prefix_append p t, hne⟩
    simp only [put, under, tell, if_pos hand, List.drop_left, List.append_cancel_left_eq,
      isBetween_append]
  · have heq : r ≠ p ++ q := by
      rintro rfl
      exact hr ⟨List.prefix_append p q, by simpa using hq⟩
    have hbetween : ¬IsBetween p r (p ++ q) := fun h => hr h.1
    rw [tell, if_neg heq, if_neg (fun hand => hbetween hand.1)]
    simp only [put, under, if_neg hr]

end

end Names

theorem Entries.names_append_eq_none {es : Entries} {p : List String} (h : es.names p = none)
    (hp : p ≠ []) (r : List String) : es.names (p ++ r) = none := by
  induction p generalizing es with
  | nil => exact absurd rfl hp
  | cons k p ih =>
    rw [List.cons_append]
    cases hlookup : es.lookup k with
    | none => exact names_cons_of_none hlookup _
    | some n =>
      cases p with
      | nil =>
        rw [names_singleton, hlookup] at h
        contradiction
      | cons k' p =>
        rw [names_cons_of_lookup hlookup (List.cons_ne_nil _ _)] at h
        rw [names_cons_of_lookup hlookup (by simp)]
        exact ih h (List.cons_ne_nil _ _)

/-! ### Drafts -/

namespace Draft

/-- The path of the open section. -/
def path (d : Draft) : List String :=
  match d.current with
  | none => []
  | some s => s.path ++ [s.key]

/-- The names of a document, had it to end here. -/
def names (d : Draft) : Names Node :=
  match d.current with
  | none => d.entries.names
  | some s => d.root.names.put (s.path ++ [s.key]) .parent
      (if s.isElement then .tables else .table) d.entries.names

/-- There is a place for the open section. -/
def CanClose (d : Draft) : Prop :=
  ∀ s, d.current = some s → ∃ above, d.root.follow s.path = some above ∧
    (s.isElement = true →
      above.lookup s.key = none ∨ ∃ elements, above.lookup s.key = some (.tables elements))

variable {d : Draft}

theorem exists_addElement {key : String} {above : Entries} (element : Entries)
    (h : above.lookup key = none ∨ ∃ elements, above.lookup key = some (.tables elements)) :
    ∃ front,
      addElement key element above = some (above.set key (.tables (front ++ [element]))) := by
  obtain h | ⟨elements, h⟩ := h
  · exact ⟨[], by rw [addElement, h]; rfl⟩
  · exact ⟨elements, by rw [addElement, h]⟩

theorem CanClose.exists_close (h : d.CanClose) : ∃ es, d.close = some es ∧ es.names = d.names := by
  unfold CanClose at h
  obtain ⟨root, current, entries⟩ := d
  cases current with
  | none => exact ⟨entries, rfl, rfl⟩
  | some s =>
    obtain ⟨path, key, isElement⟩ := s
    obtain ⟨above, hfollow, habove⟩ := h _ rfl
    cases isElement with
    | true =>
      obtain ⟨front, hadd⟩ := exists_addElement entries (habove rfl)
      obtain ⟨es, hes, hnames⟩ := Entries.modify_put hfollow hadd
      refine ⟨es, hes, ?_⟩
      rw [hnames, Entries.standing_concat, Entries.inside_concat]
      rfl
    | false =>
      obtain ⟨es, hes, hnames⟩ := Entries.modify_put
        (f := fun es => some (es.set key (.table .header entries))) hfollow rfl
      exact ⟨es, hes, hnames⟩

theorem names_path_append {r : List String} (hr : r ≠ []) :
    d.names (d.path ++ r) = d.entries.names r := by
  obtain ⟨root, current, entries⟩ := d
  cases current with
  | none => rfl
  | some s =>
    have hand : s.path ++ [s.key] <+: s.path ++ [s.key] ++ r ∧
        s.path ++ [s.key] ++ r ≠ s.path ++ [s.key] := ⟨List.prefix_append _ _, by simpa using hr⟩
    dsimp only [names, path]
    unfold Names.put Names.under
    rw [if_pos hand, List.drop_left]

/-- An entry of the open section is told of the whole. -/
theorem names_of_assign {es : Entries} {q : List String} {n : Node} (hn : n.IsValue) (hq : q ≠ [])
    (hfree : d.entries.names q = none)
    (hes : es.names = d.entries.names.put q .dotted n.standing n.inside.names) :
    ({ d with entries := es } : Draft).names =
      d.names.tell d.path (d.path ++ q) .dotted (.value n) := by
  have hbelow (r : List String) (_ : r ≠ []) : d.entries.names (q ++ r) = Names.nothing r :=
    Entries.names_append_eq_none hfree hq r
  rw [hn.inside_eq, Entries.names_empty, Names.put_eq_tell hbelow, hn] at hes
  obtain ⟨root, current, entries⟩ := d
  cases current with
  | none => exact hes
  | some s =>
    dsimp only [names, path] at hes ⊢
    rw [hes, Names.put_tell hq]

theorem exists_openHeader {es above : Entries} {path : List String} {key : String}
    (hfollow : es.follow path = some above)
    (habove : ∀ r ≠ [], above.names r = es.names (path ++ r))
    (hkey : es.names (path ++ [key]) = none ∨ es.names (path ++ [key]) = some .parent) :
    ∃ d, openHeader es path key = some d ∧ d.path = path ++ [key] ∧ d.CanClose ∧
      d.names = es.names.tell [] (path ++ [key]) .parent .table := by
  have hcanClose (inner : Entries) : CanClose ⟨es, some ⟨path, key, false⟩, inner⟩ := by
    rintro s hs
    obtain rfl := Option.some.inj hs
    exact ⟨above, hfollow, fun h => absurd h Bool.false_ne_true⟩
  have hnames (inner : Entries)
      (hinner : ∀ r ≠ [], above.names (key :: r) = inner.names r) :
      names ⟨es, some ⟨path, key, false⟩, inner⟩ =
        es.names.tell [] (path ++ [key]) .parent .table := by
    apply Names.put_eq_tell
    intro r hr
    rw [List.append_assoc, ← habove _ (by simp), List.singleton_append, hinner r hr]
  rw [← habove _ (List.cons_ne_nil key []), Entries.names_singleton] at hkey
  cases hlookup : above.lookup key with
  | none =>
    refine ⟨⟨es, some ⟨path, key, false⟩, []⟩, ?_, rfl, hcanClose _, hnames _ fun r _ => ?_⟩
    · rw [openHeader, hfollow, Option.bind_eq_bind, Option.bind_some]
      simp only [hlookup]
      rfl
    · rw [Entries.names_cons_of_none hlookup, Entries.names_empty]
      rfl
  | some n =>
    rw [hlookup] at hkey
    have hstanding : n.standing = .parent := Option.some.inj (hkey.resolve_left (by simp))
    have hn := n.of_standing
    rw [hstanding] at hn
    obtain ⟨inner, rfl⟩ := hn
    refine ⟨⟨es, some ⟨path, key, false⟩, inner⟩, ?_, rfl, hcanClose _, hnames _ fun r hr => ?_⟩
    · rw [openHeader, hfollow, Option.bind_eq_bind, Option.bind_some]
      simp only [hlookup]
      rfl
    · exact Entries.names_cons_of_lookup hlookup hr

theorem exists_openElement {es above : Entries} {path : List String} {key : String}
    (hfollow : es.follow path = some above)
    (habove : ∀ r ≠ [], above.names r = es.names (path ++ r))
    (hkey : es.names (path ++ [key]) = none ∨ es.names (path ++ [key]) = some .tables) :
    ∃ d, openElement es path key = some d ∧ d.path = path ++ [key] ∧ d.CanClose ∧
      d.names = (es.names.forget (path ++ [key])).tell [] (path ++ [key]) .parent .tables := by
  rw [← habove _ (List.cons_ne_nil key []), Entries.names_singleton] at hkey
  have hopen : openElement es path key = some ⟨es, some ⟨path, key, true⟩, []⟩ ∧
      (above.lookup key = none ∨ ∃ elements, above.lookup key = some (.tables elements)) := by
    rw [openElement, hfollow, Option.bind_eq_bind, Option.bind_some]
    cases hlookup : above.lookup key with
    | none => exact ⟨rfl, .inl rfl⟩
    | some n =>
      rw [hlookup] at hkey
      have hstanding : n.standing = .tables := Option.some.inj (hkey.resolve_left (by simp))
      have hn := n.of_standing
      rw [hstanding] at hn
      obtain ⟨elements, rfl⟩ := hn
      exact ⟨rfl, .inr ⟨elements, rfl⟩⟩
  refine ⟨⟨es, some ⟨path, key, true⟩, []⟩, hopen.1, rfl, ?_, ?_⟩
  · rintro s hs
    obtain rfl := Option.some.inj hs
    exact ⟨above, hfollow, fun _ => hopen.2⟩
  · exact (congrArg _ Entries.names_empty).trans Names.put_nothing

end Draft

/-- A draft has the names of an outline, and nodes that have been read for the texts of its
values. -/
structure Shows (o : Outline (List Char)) (d : Draft) : Prop where
  path : d.path = o.current
  canClose : d.CanClose
  names : o.names.Rel IsReadAs d.names

namespace Shows

variable {o : Outline (List Char)} {d : Draft}

theorem start : Shows .start ⟨[], none, []⟩ where
  path := rfl
  canClose := fun _ hs => by contradiction
  names := by
    have : Draft.names ⟨[], none, []⟩ = .nothing := Entries.names_empty
    rw [this]
    exact Names.Rel.nothing

/-- A document that may end with a header. -/
theorem exists_follow {path : List String} {key : String} {allowed : Standing (List Char)}
    {allowed' : Standing Node} (h : Shows o d)
    (hallowed : ∀ s, Standing.Rel IsReadAs allowed s → s = allowed')
    (hadmits : o.AdmitsHeader (path ++ [key]) allowed) :
    ∃ es above, d.close = some es ∧ es.names = d.names ∧ es.follow path = some above ∧
      (∀ r ≠ [], above.names r = es.names (path ++ r)) ∧
      (es.names (path ++ [key]) = none ∨ es.names (path ++ [key]) = some allowed') := by
  obtain ⟨es, hes, hnames⟩ := h.canClose.exists_close
  obtain ⟨hway, hend⟩ := hadmits
  have hrel : o.names.Rel IsReadAs es.names := hnames ▸ h.names
  have hthrough (r : List String) (hr : r ≠ []) (hle : r <+: path) (n : Node) :
      es.names r ≠ some (.value n) := by
    have hbetween : IsBetween [] r (path ++ [key]) :=
      isBetween_concat.mpr ⟨⟨ List.nil_prefix, hr⟩, hle⟩
    exact hrel.not_value (hway r hbetween) n
  obtain ⟨above, hfollow, habove⟩ := Entries.exists_follow hthrough
  refine ⟨es, above, hes, hnames, hfollow, habove, ?_⟩
  obtain hnone | hsome := hend
  · exact .inl (hrel.eq_none hnone)
  · obtain ⟨s, hs, hrel⟩ := hrel.exists_some hsome
    exact .inr (hallowed s hrel ▸ hs)

theorem exists_add_header {path : List String} {key : String} (h : Shows o d)
    (hadmits : o.AdmitsHeader (path ++ [key]) .parent) :
    ∃ d', d.add (.header path key) = some d' ∧ Shows (o.add (.header (path ++ [key]))) d' := by
  obtain ⟨es, above, hes, hnames, hfollow, habove, hend⟩ :=
    h.exists_follow (fun s hs => by cases hs; rfl) hadmits
  obtain ⟨d', hopen, hpath, hcanClose, hnames'⟩ := Draft.exists_openHeader hfollow habove hend
  refine ⟨d', ?_, hpath, hcanClose, ?_⟩
  · rw [Draft.add, hes, Option.bind_eq_bind, Option.bind_some, hopen]
  · rw [hnames', hnames]
    exact h.names.tell .parent .table

theorem exists_add_element {path : List String} {key : String} (h : Shows o d)
    (hadmits : o.AdmitsHeader (path ++ [key]) .tables) :
    ∃ d', d.add (.element path key) = some d' ∧ Shows (o.add (.element (path ++ [key]))) d' := by
  obtain ⟨es, above, hes, hnames, hfollow, habove, hend⟩ :=
    h.exists_follow (fun s hs => by cases hs; rfl) hadmits
  obtain ⟨d', hopen, hpath, hcanClose, hnames'⟩ := Draft.exists_openElement hfollow habove hend
  refine ⟨d', ?_, hpath, hcanClose, ?_⟩
  · rw [Draft.add, hes, Option.bind_eq_bind, Option.bind_some, hopen]
  · rw [hnames', hnames]
    exact h.names.forget.tell .parent .tables

theorem exists_add_assignment {path : List String} {key : String} {v : List Char} {n : Node}
    (h : Shows o d) (hadmits : o.AdmitsKey True (path ++ [key])) (hn : IsReadAs v n) :
    ∃ d', d.add (.assignment path key n) = some d' ∧
      Shows (o.add (.assignment (path ++ [key]) v)) d' := by
  obtain ⟨hway, hend, hfree⟩ := hadmits
  have hlocal {r : List String} (hr : r ≠ []) : d.entries.names r = d.names (o.current ++ r) := by
    rw [← h.path, Draft.names_path_append hr]
  have hway (r : List String) (hr : r ≠ []) (hle : r <+: path) :
      d.entries.names r = none ∨ d.entries.names r = some .dotted ∨
        d.entries.names r = some .parent := by
    rw [hlocal hr]
    have hbetween : IsBetween [] r (path ++ [key]) :=
      isBetween_concat.mpr ⟨⟨ List.nil_prefix, hr⟩, hle⟩
    exact h.names.of_unheaded (hway _ (Names.isBetween_append.mpr hbetween))
  have hend : if path = [] then true = true else d.entries.names path ≠ some .parent := by
    split
    next => rfl
    next hpath =>
      have := hend trivial
      rw [List.dropLast_concat] at this
      rw [hlocal hpath]
      exact h.names.not_parent this
  have hfree : d.entries.names (path ++ [key]) = none := by
    rw [hlocal (by simp)]
    exact h.names.eq_none hfree
  obtain ⟨es, hes, hnames⟩ := Entries.assign_put hway hend hfree n
  refine ⟨{ d with entries := es }, ?_, h.path, h.canClose, ?_⟩
  · rw [Draft.add, hes]
    rfl
  · rw [Draft.names_of_assign hn.1 (by simp) hfree hnames, h.path]
    exact h.names.tell .dotted (.value hn)

/-- What an outline admits the reader takes. -/
theorem exists_add {x : Clause (List Char)} {s : Statement} (h : Shows o d)
    (hadmits : o.Admits True x) (hread : IsReadClause x s) :
    ∃ d', d.add s = some d' ∧ Shows (o.add x) d' := by
  cases hread with
  | header => exact h.exists_add_header hadmits
  | element => exact h.exists_add_element hadmits
  | assignment hn => exact h.exists_add_assignment hadmits hn

/-- The step for each clause carries over to all of them. -/
theorem exists_foldlM {xs : List (Clause (List Char))} {ss : List Statement} (h : Shows o d)
    (hadmits : o.AdmitsAll True xs) (hread : List.Forall₂ IsReadClause xs ss) :
    ∃ d', ss.foldlM Draft.add d = some d' ∧ Shows (o.after xs) d' := by
  induction hread generalizing o d with
  | nil => exact ⟨d, rfl, h⟩
  | cons hx _ ih =>
    obtain ⟨hfirst, hrest⟩ := hadmits
    obtain ⟨d', hadd, hshows⟩ := h.exists_add hfirst hx
    obtain ⟨d'', hfold, hshows⟩ := ih hshows hrest
    refine ⟨d'', ?_, hshows⟩
    rw [List.foldlM_cons, hadd, Option.bind_eq_bind, Option.bind_some, hfold]

end Shows

/-- A document, told by its clauses. A byte order mark may stand in front. -/
def IsDocument (bounded : Prop) (xs : List (Clause (List Char))) (text : String) : Prop :=
  ∃ cs, AreLines bounded xs cs ∧ (text.toList = cs ∨ text.toList = '\ufeff' :: cs) ∧
    Outline.start.AdmitsAll bounded xs

/-- A document within the bounds is read for what it comes to. -/
theorem IsDocument.exists_parse? {xs : List (Clause (List Char))} {text : String}
    (h : IsDocument True xs text) :
    ∃ es, parse? text = some es ∧ (Outline.start.after xs).names.Rel IsReadAs es.names := by
  obtain ⟨cs, hlines, htext, hadmits⟩ := h
  obtain ⟨ss, hss, hread⟩ := exists_statements? hlines
  obtain ⟨d, hfold, hshows⟩ := Shows.start.exists_foldlM hadmits hss
  obtain ⟨es, hes, hnames⟩ := hshows.canClose.exists_close
  refine ⟨es, ?_, hnames ▸ hshows.names⟩
  have hparse : (do
      let draft ← (← statements? cs).foldlM Draft.add ⟨[], none, []⟩
      draft.close) = some es := by
    simp only [hread, Option.bind_eq_bind, Option.bind_some, hfold, hes]
  unfold parse?
  obtain htext | htext := htext
  · rw [htext]
    split
    next => exact absurd rfl hlines.head?_ne
    next => exact hparse
  · rw [htext]
    exact hparse

end Sidecar.Toml
