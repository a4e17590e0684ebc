import Mathlib
import Sidecar.Toml.Node

/-! What the names of a TOML document stand for. A table may be added to as long as its name has not
been given out, and in few ways after that; here the names of a table are told with all that lies
below them, and so is what each way of adding to the table does to them. -/

namespace Sidecar.Toml

/-- What a name stands for. -/
inductive Standing (α : Type) where
  | value (a : α)
  /-- A table with a header of its own. -/
  | table
  /-- A table that is only part of longer headers so far. -/
  | parent
  /-- A table that dotted keys have made. -/
  | dotted
  /-- Tables under double headers. -/
  | tables
  deriving DecidableEq

/-- What names stand for, each told by the path that leads to it. Below tables under double headers
lie the names of the last of them. -/
abbrev Names (α : Type) := List String → Option (Standing α)

/-- Below one path and above another. -/
def IsBetween (above r below : List String) : Prop :=
  (above <+: r ∧ r ≠ above) ∧ r <+: below ∧ r ≠ below

instance (above r below : List String) : Decidable (IsBetween above r below) :=
  inferInstanceAs (Decidable (_ ∧ _))

instance (above below : List String) (P : List String → Prop) [∀ r, Decidable (P r)] :
    Decidable (∀ r, IsBetween above r below → P r) :=
  decidable_of_iff (∀ r ∈ below.inits, IsBetween above r below → P r)
    ⟨fun h r hr => h r (List.mem_inits r below |>.mpr hr.2.1) hr, fun h r _ hr => h r hr⟩

theorem isBetween_concat {above p r : List String} {k : String} :
    IsBetween above r (p ++ [k]) ↔ (above <+: r ∧ r ≠ above) ∧ r <+: p := by
  unfold IsBetween
  rw [List.prefix_concat_iff]
  refine and_congr_right fun _ => ⟨fun h => h.1.resolve_left h.2, fun hle => ⟨.inr hle, ?_⟩⟩
  rintro rfl
  simpa using hle.length_le

theorem not_isBetween_concat {p r : List String} {k : String} : ¬IsBetween p r (p ++ [k]) := by
  intro h
  obtain ⟨⟨hle, hne⟩, hle'⟩ := isBetween_concat.mp h
  exact hne (hle'.eq_of_length_le hle.length_le)

theorem eq_of_isBetween {r : List String} {k k' : String} (h : IsBetween [] r [k, k']) :
    r = [k] := by
  obtain ⟨⟨-, hne⟩, hle⟩ := isBetween_concat (p := [k]) |>.mp h
  have hone : r <+: [] ++ [k] := hle
  exact (List.prefix_concat_iff.mp hone).resolve_right fun h => hne (List.prefix_nil.mp h)

namespace Names

variable {α : Type}

def nothing : Names α :=
  fun _ => none

/-- A name is given out, and so are those on the way to it that are still free. -/
def tell (names : Names α) (above p : List String) (way what : Standing α) : Names α := fun r =>
  if r = p then some what
  else if IsBetween above r p ∧ (names r).isNone then some way
  else names r

/-- The names below a path are free again. -/
def forget (names : Names α) (p : List String) : Names α := fun r =>
  if p <+: r ∧ r ≠ p then none else names r

/-- A table with names of its own takes the place of all that lies below a path. -/
def under (names : Names α) (p : List String) (inner : Names α) : Names α := fun r =>
  if p <+: r ∧ r ≠ p then inner (r.drop p.length) else names r

/-- What is put at a path: a name is given out there with new names below it. -/
def put (names : Names α) (p : List String) (way what : Standing α) (new : Names α) : Names α :=
  (names.tell [] p way what).under p new

variable {names inner new : Names α} {above p q r : List String} {k : String}
  {way what : Standing α}

theorem isBetween_nil_cons : IsBetween [] (k :: r) (k :: p) ↔ r <+: p ∧ r ≠ p := by
  simp [IsBetween, List.cons_prefix_cons]

theorem put_cons_cons (hbelow : ∀ r ≠ [], names (k :: r) = inner r) (hr : r ≠ []) :
    put names (k :: p) way what new (k :: r) = put inner p way what new r := by
  simp only [put, under, tell, IsBetween, List.cons_prefix_cons, List.nil_prefix,
    true_and, ne_eq, List.cons.injEq, List.length_cons, List.drop_succ_cons, hbelow r hr, hr,
    List.cons_ne_nil, not_false_eq_true]

theorem put_singleton (hp : p ≠ []) :
    put names (k :: p) way what new [k] = some ((names [k]).getD way) := by
  have hne : ¬[k] = k :: p := fun h => hp (List.cons.inj h).2.symm
  have hbetween : IsBetween [] [k] (k :: p) := isBetween_nil_cons.mpr ⟨ List.nil_prefix, hp.symm⟩
  have hnot : ¬(k :: p <+: [k] ∧ [k] ≠ k :: p) := by
    rintro ⟨hle, -⟩
    have := hle.length_le
    simp only [List.length_cons, List.length_nil] at this
    exact hp (List.length_eq_zero_iff.mp (by omega))
  rw [put, under, if_neg hnot, tell, if_neg hne]
  cases names [k] with
  | none => rw [if_pos ⟨hbetween, rfl⟩, Option.getD_none]
  | some s => rw [if_neg (by simp), Option.getD_some]

theorem put_cons_ne {k' : String} (h : k' ≠ k) :
    put names (k :: p) way what new (k' :: r) = names (k' :: r) := by
  simp [put, under, tell, IsBetween, List.cons_prefix_cons, h, Ne.symm h]

theorem put_nil (hp : p ≠ []) : put names p way what new [] = names [] := by
  simp [put, under, tell, IsBetween, hp, Ne.symm hp]

end Names

/-- What a node stands for. No table in an array of tables is none. -/
def Node.standing : Node → Standing Node
  | .table .header _ => .table
  | .table .longerHeader _ => .parent
  | .table .dottedKey _ => .dotted
  | .tables (_ :: _) => .tables
  | n => .value n

/-- The table that a node leads into. -/
def Node.inside : Node → Entries
  | .table _ es => es
  | .tables elements => elements.getLast?.getD []
  | _ => []

/-- What a node is, by what it stands for. -/
theorem Node.of_standing (n : Node) :
    match n.standing with
    | .value m => m = n
    | .table => ∃ es, n = .table .header es
    | .parent => ∃ es, n = .table .longerHeader es
    | .dotted => ∃ es, n = .table .dottedKey es
    | .tables => ∃ elements, n = .tables elements := by
  match n with
  | .table .header es | .table .longerHeader es | .table .dottedKey es => exact ⟨es, rfl⟩
  | .tables (element :: elements) => exact ⟨element :: elements, rfl⟩
  | .tables [] | .text _ | .boolean _ | .integer _ | .float | .moment | .array _ | .inline _ => rfl

/-- The names of a table and of all tables in it. -/
def Entries.names (es : Entries) : Names Node
  | [] => none
  | k :: path =>
    (es.lookup k).bind fun n => if path = [] then some n.standing else names n.inside path

namespace Entries

open Names

section

variable {es above new : Entries} {k key : String} {path : List String} {n : Node}
  {f : Entries → Option Entries}

@[simp] theorem names_empty : names [] = Names.nothing := by
  funext r
  cases r <;> rfl

@[simp] theorem names_nil : es.names [] = none :=
  rfl

theorem names_cons (es : Entries) (k : String) (path : List String) : es.names (k :: path) =
    (es.lookup k).bind fun n => if path = [] then some n.standing else n.inside.names path :=
  rfl

theorem names_singleton (es : Entries) (k : String) :
    es.names [k] = (es.lookup k).map Node.standing := by
  rw [names_cons]
  cases es.lookup k <;> rfl

theorem names_cons_of_lookup (h : es.lookup k = some n) (hpath : path ≠ []) :
    es.names (k :: path) = n.inside.names path := by
  rw [names_cons, h, Option.bind_some, if_neg hpath]

theorem names_cons_of_none (h : es.lookup k = none) (path : List String) :
    es.names (k :: path) = none := by
  rw [names_cons, h]
  rfl

theorem lookup_cons_eq (m : Node) (es : Entries) (k key : String) :
    List.lookup k ((key, m) :: es) = if k = key then some m else es.lookup k := by
  rw [List.lookup_cons]
  split
  next h => rw [if_pos (beq_iff_eq.mp h)]
  next h => rw [if_neg (beq_eq_false_iff_ne.mp h)]

theorem lookup_set (es : Entries) (key k : String) (n : Node) :
    (es.set key n).lookup k = if k = key then some n else es.lookup k := by
  induction es with
  | nil => exact lookup_cons_eq n [] k key
  | cons e es ih =>
    obtain ⟨first, m⟩ := e
    rw [set]
    split
    next h => rw [lookup_cons_eq, lookup_cons_eq, h]; split <;> rfl
    next h =>
      rw [lookup_cons_eq, lookup_cons_eq, ih]
      by_cases hk : k = first
      · rw [if_pos hk, if_pos hk, if_neg (hk ▸ h)]
      · rw [if_neg hk, if_neg hk]

theorem set_eq_append (h : es.lookup key = none) (n : Node) : es.set key n = es ++ [(key, n)] := by
  induction es with
  | nil => rfl
  | cons e es ih =>
    obtain ⟨first, m⟩ := e
    rw [lookup_cons_eq] at h
    split at h
    next => contradiction
    next hne => rw [set, if_neg (Ne.symm hne), ih h, List.cons_append]

theorem names_set (es : Entries) (key k : String) (n : Node) (path : List String) :
    (es.set key n).names (k :: path) =
      if k = key then if path = [] then some n.standing else n.inside.names path
      else es.names (k :: path) := by
  rw [names_cons, lookup_set]
  split
  next => rw [Option.bind_some]
  next => rfl

end

/-! ### Putting nodes -/

section

variable {es inner : Entries} {n : Node} {k : String} {p : List String}
  {way what : Standing Node} {new : Names Node}

/-- A table is told by what is put into the table that a node leads into. -/
theorem names_set_put (hp : p ≠ []) (hstanding : n.standing = (es.names [k]).getD way)
    (hbelow : ∀ r ≠ [], es.names (k :: r) = inner.names r)
    (hinside : n.inside.names = put inner.names p way what new) :
    (es.set k n).names = put es.names (k :: p) way what new := by
  funext r
  cases r with
  | nil => rw [put_nil (List.cons_ne_nil k p), names_nil, names_nil]
  | cons k' r =>
    rw [names_set]
    split
    next h =>
      subst h
      split
      next hr => rw [hr, put_singleton hp, hstanding]
      next hr => rw [put_cons_cons hbelow hr, hinside]
    next h => rw [put_cons_ne h]

/-- The same where the node is new. -/
theorem names_set_put_new (hp : p ≠ []) (hlookup : es.lookup k = none)
    (hstanding : n.standing = way) (hinside : n.inside.names = put (names []) p way what new) :
    (es.set k n).names = put es.names (k :: p) way what new := by
  have hbelow (r : List String) (_ : r ≠ []) : es.names (k :: r) = names [] r := by
    rw [names_cons_of_none hlookup, names_empty]
    rfl
  apply names_set_put hp _ hbelow hinside
  rw [hstanding, names_singleton, hlookup]
  rfl

/-- What is put into a table itself. -/
theorem names_set_self (es : Entries) (k : String) (n : Node) (way : Standing Node) :
    (es.set k n).names = put es.names [k] way n.standing n.inside.names := by
  funext r
  cases r with
  | nil => rw [put_nil (List.cons_ne_nil k []), names_nil, names_nil]
  | cons k' r =>
    rw [names_set]
    split
    next h =>
      subst h
      split
      next hr =>
        subst hr
        simp [put, Names.under, Names.tell]
      next hr => simp [put, Names.under, List.cons_prefix_cons, hr]
    next h => rw [put_cons_ne h]

end

/-! ### Following, changing and adding -/

section

variable {es above inner inner' last : Entries} {elements : List Entries} {n : Node}
  {k key : String}
  {path : List String} {f : Entries → Option Entries}

theorem standing_table_congr (origin : Origin) (es es' : Entries) :
    (Node.table origin es).standing = (Node.table origin es').standing := by
  cases origin <;> rfl

theorem standing_concat (front : List Entries) (last : Entries) :
    (Node.tables (front ++ [last])).standing = .tables := by
  cases front <;> rfl

theorem inside_concat (front : List Entries) (last : Entries) :
    (Node.tables (front ++ [last])).inside = last := by
  rw [Node.inside, List.getLast?_concat, Option.getD_some]

/-- What a header's path may pass: a table, or the last of some tables. -/
theorem cases_of_standing (h : ∀ a, n.standing ≠ .value a) :
    (∃ origin inner, n = .table origin inner) ∨
      ∃ front last, n = .tables (front ++ [last]) := by
  cases n with
  | table origin inner => exact .inl ⟨origin, inner, rfl⟩
  | tables elements =>
    rcases List.eq_nil_or_concat' elements with rfl | ⟨front, last, rfl⟩
    · exact absurd rfl (h _)
    · exact .inr ⟨front, last, rfl⟩
  | text | boolean | integer | float | moment | array | inline => exact absurd rfl (h _)

/-- What a dotted key's path may pass. -/
theorem exists_table_of_standing
    (h : some n.standing = none ∨ some n.standing = some .dotted ∨
      some n.standing = some .parent) :
    ∃ origin inner, n = .table origin inner ∧ (origin = .dottedKey ∨ origin = .longerHeader) := by
  have hn := n.of_standing
  obtain h | h | h := h
  · contradiction
  · rw [Option.some.inj h] at hn
    obtain ⟨inner, rfl⟩ := hn
    exact ⟨_, inner, rfl, .inl rfl⟩
  · rw [Option.some.inj h] at hn
    obtain ⟨inner, rfl⟩ := hn
    exact ⟨_, inner, rfl, .inr rfl⟩

/-- A header's path leads through whatever is not a value. -/
theorem exists_follow (h : ∀ r, r ≠ [] → r <+: path → ∀ a, es.names r ≠ some (.value a)) :
    ∃ above, es.follow path = some above ∧ ∀ r ≠ [], above.names r = es.names (path ++ r) := by
  induction path generalizing es with
  | nil => exact ⟨es, rfl, fun r _ => rfl⟩
  | cons k path ih =>
    rw [follow]
    cases hlookup : es.lookup k with
    | none =>
      refine ⟨[], rfl, fun r _ => ?_⟩
      rw [List.cons_append, names_cons_of_none hlookup, names_empty]
      rfl
    | some n =>
      have hstanding (a : Node) : n.standing ≠ .value a := by
        have := h [k] (List.cons_ne_nil k []) (by simp [List.cons_prefix_cons]) a
        rw [names_singleton, hlookup] at this
        exact fun heq => this (congrArg some heq)
      have hinside : ∃ above, n.inside.follow path = some above ∧
          ∀ r ≠ [], above.names r = es.names (k :: path ++ r) := by
        have hthrough (r : List String) (hr : r ≠ []) (hle : r <+: path) (a : Node) :
            n.inside.names r ≠ some (.value a) := by
          rw [← names_cons_of_lookup hlookup hr]
          exact h (k :: r) (List.cons_ne_nil k r) (List.cons_prefix_cons.mpr ⟨rfl, hle⟩) a
        obtain ⟨above, habove, hnames⟩ := ih hthrough
        refine ⟨above, habove, fun r hr => ?_⟩
        rw [hnames r hr, List.cons_append, names_cons_of_lookup hlookup (by simp [hr])]
      obtain ⟨origin, inner, rfl⟩ | ⟨front, last, rfl⟩ := cases_of_standing hstanding
      · exact hinside
      · rw [inside_concat] at hinside
        simpa only [List.getLast?_concat, Option.bind_some] using hinside

/-- What a header's path leads to is changed by putting a node there. -/
theorem modify_put (hfollow : es.follow path = some above) (hf : f above = some (above.set key n)) :
    ∃ es', es.modify f path = some es' ∧
      es'.names = put es.names (path ++ [key]) .parent n.standing n.inside.names := by
  induction path generalizing es with
  | nil =>
    cases hfollow
    exact ⟨_, hf, names_set_self above key n _⟩
  | cons k path ih =>
    rw [follow] at hfollow
    rw [modify, List.cons_append]
    have hne : path ++ [key] ≠ [] := by simp
    cases hlookup : es.lookup k with
    | none =>
      rw [hlookup] at hfollow
      cases hfollow
      have hempty : follow [] path = some [] := by cases path <;> rfl
      obtain ⟨inner, hinner, hnames⟩ := ih hempty
      refine ⟨es.set k (.table .longerHeader inner), ?_, ?_⟩
      · simp only [hinner, Option.map_some]
      · exact names_set_put_new hne hlookup rfl hnames
    | some m =>
      rw [hlookup] at hfollow
      have hbelow (r : List String) (hr : r ≠ []) : es.names (k :: r) = m.inside.names r :=
        names_cons_of_lookup hlookup hr
      have hstanding : (es.names [k]).getD .parent = m.standing := by
        rw [names_singleton, hlookup]
        rfl
      match m with
      | .table origin inner =>
        obtain ⟨inner', hinner, hnames⟩ := ih hfollow
        refine ⟨es.set k (.table origin inner'), ?_, ?_⟩
        · simp only [hinner, Option.map_some]
        · exact names_set_put hne ((standing_table_congr origin inner' inner).trans hstanding.symm)
            hbelow hnames
      | .tables elements =>
        obtain ⟨last, hlast, hlead⟩ := Option.bind_eq_some_iff.mp hfollow
        obtain ⟨front, rfl⟩ := List.getLast?_eq_some_iff.mp hlast
        obtain ⟨last', hmodify, hnames⟩ := ih hlead
        refine ⟨es.set k (.tables (front ++ [last'])), ?_, ?_⟩
        · simp [hmodify]
        · rw [inside_concat] at hbelow
          refine names_set_put hne ?_ hbelow (by rw [inside_concat, hnames])
          rw [hstanding, standing_concat, standing_concat]

/-- A dotted key's path leads through tables without a header, into one that is no part of a longer
header. -/
theorem assign_put {«open» : Bool}
    (hway : ∀ r, r ≠ [] → r <+: path →
      es.names r = none ∨ es.names r = some .dotted ∨ es.names r = some .parent)
    (hend : if path = [] then «open» = true else es.names path ≠ some .parent)
    (hfree : es.names (path ++ [key]) = none) (n : Node) :
    ∃ es', es.assign «open» path key n = some es' ∧
      es'.names = put es.names (path ++ [key]) .dotted n.standing n.inside.names := by
  induction path generalizing es «open» with
  | nil =>
    rw [if_pos rfl] at hend
    rw [List.nil_append, names_singleton, Option.map_eq_none_iff] at hfree
    refine ⟨es.set key n, ?_, names_set_self es key n _⟩
    rw [assign, hend, hfree, set_eq_append hfree]
    rfl
  | cons k path ih =>
    rw [if_neg (List.cons_ne_nil k path)] at hend
    rw [assign, List.cons_append]
    have hne : path ++ [key] ≠ [] := by simp
    cases hlookup : es.lookup k with
    | none =>
      have hnothing (r : List String) : names [] r = none := congrFun names_empty r
      have hend : if path = [] then true = true else names [] path ≠ some .parent := by
        simp [hnothing]
      obtain ⟨inner, hinner, hnames⟩ := ih (fun r _ _ => .inl (hnothing r)) hend (hnothing _)
      refine ⟨es.set k (.table .dottedKey inner), ?_, ?_⟩
      · simp only [hinner, Option.map_some]
      · exact names_set_put_new hne hlookup rfl hnames
    | some m =>
      have hone : es.names [k] = some m.standing := by rw [names_singleton, hlookup]; rfl
      have hbelow (r : List String) (hr : r ≠ []) : es.names (k :: r) = m.inside.names r :=
        names_cons_of_lookup hlookup hr
      have hfirst := hway [k] (List.cons_ne_nil k []) (by simp [List.cons_prefix_cons])
      rw [hone] at hfirst
      obtain ⟨origin, inner, rfl, horigin⟩ := exists_table_of_standing hfirst
      have hway (r : List String) (hr : r ≠ []) (hle : r <+: path) :
          names inner r = none ∨ names inner r = some .dotted ∨ names inner r = some .parent := by
        have := hway (k :: r) (List.cons_ne_nil k r) (List.cons_prefix_cons.mpr ⟨rfl, hle⟩)
        rwa [hbelow r hr] at this
      have hend : if path = [] then (origin == .dottedKey) = true
          else names inner path ≠ some .parent := by
        split
        next hpath =>
          subst hpath
          rw [hone] at hend
          obtain rfl | rfl := horigin
          · rfl
          · exact absurd rfl hend
        next hpath => rwa [hbelow path hpath] at hend
      rw [List.cons_append, hbelow _ hne] at hfree
      obtain ⟨inner', hinner, hnames⟩ := ih hway hend hfree
      refine ⟨es.set k (.table origin inner'), ?_, ?_⟩
      · obtain rfl | rfl := horigin <;> simp only [hinner, Option.map_some]
      · refine names_set_put hne ?_ hbelow hnames
        rw [hone, Option.getD_some]
        exact standing_table_congr origin inner' inner

end

end Entries

end Sidecar.Toml
