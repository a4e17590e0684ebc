import Mathlib
import Sidecar.Proofs.Toml.Keys
import Sidecar.Proofs.Toml.Names
import Sidecar.Proofs.Toml.Numbers
import Sidecar.Toml.Document

/-! Values of TOML by their grammar. The reader has bounds that the grammar does not have: on
numbers, on the names of a key and on how deep arrays and tables in braces are nested. Within them
it takes any value to its end. -/

namespace Sidecar.Toml

/-- What may stand around the items of an array: blanks, line ends and comments. -/
inductive IsGap : List Char → Prop where
  | nil : IsGap []
  | blank {c g} : isBlank c = true → IsGap g → IsGap (c :: g)
  | newline {nl g} : IsNewline nl → IsGap g → IsGap (nl ++ g)
  | comment {text nl g} : (∀ c ∈ text, isPlain c = true) → IsNewline nl → IsGap g →
      IsGap ('#' :: (text ++ (nl ++ g)))

/-- The items of an array through the closing bracket. A comma may stand behind the last. -/
inductive IsItems {α : Type} (writes : α → List Char → Prop) : List α → List Char → Prop where
  | close {g} : IsGap g → IsItems writes [] (g ++ [']'])
  | last {g a v g'} : IsGap g → writes a v → IsGap g' →
      IsItems writes [a] (g ++ (v ++ (g' ++ [']'])))
  | more {g a v g' as cs} : IsGap g → writes a v → IsGap g' → IsItems writes as cs →
      IsItems writes (a :: as) (g ++ (v ++ (g' ++ ',' :: cs)))

def IsArray {α : Type} (writes : α → List Char → Prop) (as : List α) (cs : List Char) : Prop :=
  ∃ body, IsItems writes as body ∧ cs = '[' :: body

/-- A key, told by its path, and a value. -/
def IsPair (p : List String) (v cs : List Char) : Prop :=
  ∃ key a b, IsKey p key ∧ IsBlanks a ∧ IsBlanks b ∧ cs = key ++ (a ++ '=' :: (b ++ v))

/-- What a table in braces holds, through the closing one, told by the paths of its keys. -/
inductive IsPairs (isValue : List Char → Prop) : List (List String) → List Char → Prop where
  | last {a p v pair b} : IsBlanks a → isValue v → IsPair p v pair → IsBlanks b →
      IsPairs isValue [p] (a ++ (pair ++ (b ++ ['\x7d'])))
  | more {a p v pair b ps cs} : IsBlanks a → isValue v → IsPair p v pair → IsBlanks b →
      IsPairs isValue ps cs → IsPairs isValue (p :: ps) (a ++ (pair ++ (b ++ ',' :: cs)))

/-- Neither path leads through the other. -/
def Apart (p q : List String) : Prop :=
  ¬p <+: q ∧ ¬q <+: p

/-- A table in braces. No key is in the way of another one. -/
inductive IsInlineTable (bounded : Prop) (isValue : List Char → Prop) : List Char → Prop where
  | empty {a} : IsBlanks a → IsInlineTable bounded isValue ('\x7b' :: (a ++ ['\x7d']))
  | pairs {ps cs} : IsPairs isValue ps cs → ps.Pairwise Apart →
      (bounded → ∀ p ∈ ps, p.length < depthLimit) → IsInlineTable bounded isValue ('\x7b' :: cs)

inductive IsScalar (bounded : Prop) : List Char → Prop where
  | string {cs} : IsString cs → IsScalar bounded cs
  | true : IsScalar bounded ['t', 'r', 'u', 'e']
  | false : IsScalar bounded ['f', 'a', 'l', 's', 'e']
  | integer {n cs} : IsInteger n cs → (bounded → FitsInteger n) → IsScalar bounded cs
  | decimal {negative m e cs} : IsDecimal negative m e cs →
      (bounded → negative = Bool.false → FitsDouble m e) → IsScalar bounded cs
  | special {cs} : IsSpecial cs → IsScalar bounded cs
  | moment {cs} : IsMoment cs → IsScalar bounded cs

/-- A value in which arrays and tables in braces are nested so deep at most. -/
def IsValue (bounded : Prop) : Nat → List Char → Prop
  | 0, cs => IsScalar bounded cs
  | depth + 1, cs => IsScalar bounded cs ∨
      (∃ vs, IsArray (fun v w => w = v ∧ IsValue bounded depth v) vs cs) ∨
      IsInlineTable bounded (IsValue bounded depth) cs

/-- A text that starts with nothing that may stand behind a value. -/
def Starts (v : List Char) : Prop :=
  ∃ c tail, v = c :: tail ∧ c ∉ stopMarks

/-- A reader takes a text, whatever follows that may follow a value, and what it gives is known. -/
def Reads (value : List Char → Option (Node × List Char)) (v : List Char) (known : Node → Prop) :
    Prop :=
  Starts v ∧ ∀ rest, Stops rest → ∃ n, known n ∧ value (v ++ rest) = some (n, rest)

/-- A node that stands for a value. -/
def Node.IsValue (n : Node) : Prop :=
  n.standing = .value n

/-! ### Gaps and marks -/

section

variable {a g v : List Char} {c m : Char}

theorem stops_cons (hm : m ∈ [',', ']', '\x7d', '#', '\n', '\r']) (rest : List Char) :
    Stops (m :: rest) := by
  have hall : ∀ m ∈ [',', ']', '\x7d', '#', '\n', '\r'], isBlank m = false := by simp [isBlank]
  intro c hc
  rw [skipBlanks, List.dropWhile_cons_of_neg (by simp [hall m hm])] at hc
  exact Option.some.inj hc ▸ hm

theorem IsBlanks.stops (h : IsBlanks a) {rest : List Char} (hrest : Stops rest) :
    Stops (a ++ rest) := by
  rw [Stops, skipBlanks_append h]
  exact hrest

theorem stops_gap (h : IsGap g) {rest : List Char} (hrest : Stops rest) : Stops (g ++ rest) := by
  induction h with
  | nil => exact hrest
  | blank hc _ ih =>
    rwa [Stops, List.cons_append, skipBlanks, List.dropWhile_cons_of_pos hc]
  | newline hnl =>
    obtain rfl | rfl := hnl
    · exact stops_cons (by simp) _
    · exact stops_cons (by simp) _
  | comment => exact stops_cons (by simp) _

theorem inComment_append {text : List Char} (h : ∀ c ∈ text, isPlain c = true) {nl : List Char}
    (hnl : IsNewline nl) (rest : List Char) :
    skipLines.inComment (text ++ (nl ++ rest)) = skipLines rest := by
  induction text with
  | nil => obtain rfl | rfl := hnl <;> rfl
  | cons c text ih =>
    obtain ⟨hc, htext⟩ := List.forall_mem_cons.mp h
    have hfeed : c ≠ '\n' := by rintro rfl; contradiction
    have hreturn : c ≠ '\r' := by rintro rfl; contradiction
    rw [List.cons_append, skipLines.inComment.eq_4 _ _ hfeed fun _ hr _ => hreturn hr, if_pos hc,
      ih htext]

theorem skipLines_gap (h : IsGap g) (rest : List Char) :
    skipLines (g ++ rest) = skipLines rest := by
  induction h with
  | nil => rfl
  | blank hc _ ih => obtain rfl | rfl := isBlank_iff.mp hc <;> exact ih
  | newline hnl _ ih => obtain rfl | rfl := hnl <;> exact ih
  | comment htext hnl _ ih =>
    rw [List.cons_append, skipLines.eq_4, List.append_assoc, List.append_assoc,
      inComment_append htext hnl, ih]

theorem skipLines_start (hc : c ∉ [' ', '\t', '#', '\n', '\r']) (cs : List Char) :
    skipLines (c :: cs) = c :: cs := by
  have hne {d : Char} (hd : d ∈ [' ', '\t', '#', '\n', '\r']) : c ≠ d := by
    rintro rfl
    exact hc hd
  have hblank : ¬isBlank c = true := by
    rw [isBlank_iff, not_or]
    exact ⟨hne (by simp), hne (by simp)⟩
  rw [skipLines.eq_5 _ _ (hne (by simp)) (fun _ hr _ => hne (by simp) hr) (hne (by simp)),
    if_neg hblank]

theorem skipBlanks_start (hc : c ∉ stopMarks) (cs : List Char) :
    skipBlanks (c :: cs) = c :: cs := by
  have hblank : ¬isBlank c = true := by
    intro hblank
    apply hc
    obtain rfl | rfl := isBlank_iff.mp hblank <;> decide
  rw [skipBlanks, List.dropWhile_cons_of_neg hblank]

end

/-! ### Items and pairs -/

section

variable {value : List Char → Option (Node × List Char)} {a v cs rest : List Char} {n : Node}
  {isValue : List Char → Prop} {front : List String} {last : String}

theorem Reads.mono {known known' : Node → Prop} (h : Reads value v known)
    (hmono : ∀ n, known n → known' n) : Reads value v known' := by
  refine ⟨h.1, fun rest hrest => ?_⟩
  obtain ⟨n, hn, hread⟩ := h.2 rest hrest
  exact ⟨n, hmono n hn, hread⟩

theorem Starts.skipBlanks_eq (h : Starts v) (rest : List Char) :
    skipBlanks (v ++ rest) = v ++ rest := by
  obtain ⟨c, tail, rfl, hc⟩ := h
  exact skipBlanks_start hc _

theorem Starts.skipLines_eq (h : Starts v) (rest : List Char) :
    skipLines (v ++ rest) = v ++ rest := by
  obtain ⟨c, tail, rfl, hc⟩ := h
  apply skipLines_start
  intro hmem
  apply hc
  simp only [stopMarks, List.mem_cons] at hmem ⊢
  tauto

/-- What the reader of items does with an item and what stands around it. -/
theorem items?_item {g g' : List Char} {m : Char} (hg : IsGap g) (hv : Starts v) (hg' : IsGap g')
    (hm : m = ',' ∨ m = ']')
    (hread : value (v ++ (g' ++ m :: rest)) = some (n, g' ++ m :: rest)) (fuel : Nat) :
    items? value (fuel + 1) (g ++ (v ++ (g' ++ m :: rest))) =
      if m = ',' then (items? value fuel rest).map fun (ns, rest) => (n :: ns, rest)
      else some ([n], rest) := by
  have hmark : skipLines (g' ++ m :: rest) = m :: rest := by
    rw [skipLines_gap hg', skipLines_start (by obtain rfl | rfl := hm <;> simp)]
  rw [items?.eq_2, skipLines_gap hg, hv.skipLines_eq]
  split
  next heq =>
    obtain ⟨c, tail, rfl, hc⟩ := hv
    obtain rfl := (List.cons.inj heq).1
    exact absurd (by simp [stopMarks]) hc
  next =>
    rw [hread, Option.bind_eq_bind, Option.bind_some]
    dsimp only
    rw [hmark]
    obtain rfl | rfl := hm <;> rfl

/-- The items of an array are taken to its end. -/
theorem items?_append {α : Type} {writes : α → List Char → Prop} {known : α → Node → Prop}
    {as : List α} (h : IsItems writes as cs) (hreads : ∀ a v, writes a v → Reads value v (known a))
    (rest : List Char) {fuel : Nat} (hfuel : (cs ++ rest).length < fuel) :
    ∃ ns, List.Forall₂ known as ns ∧ items? value fuel (cs ++ rest) = some (ns, rest) := by
  have hstop {g : List Char} {m : Char} (hg : IsGap g) (hm : m = ',' ∨ m = ']')
      (rest : List Char) : Stops (g ++ m :: rest) :=
    stops_gap hg (stops_cons (by obtain rfl | rfl := hm <;> simp) _)
  obtain ⟨fuel, rfl⟩ := Nat.exists_eq_add_one_of_ne_zero (show fuel ≠ 0 by omega)
  induction h generalizing fuel with
  | @close g hg =>
    refine ⟨[], .nil, ?_⟩
    rw [items?.eq_2, List.append_assoc, skipLines_gap hg, List.singleton_append,
      skipLines_start (by simp)]
    rfl
  | @last g a v g' hg hv hg' =>
    obtain ⟨hstart, hread⟩ := hreads _ _ hv
    obtain ⟨n, hn, hread⟩ := hread _ (hstop hg' (.inr rfl) rest)
    refine ⟨[n], .cons hn .nil, ?_⟩
    simp only [List.append_assoc, List.singleton_append]
    rw [items?_item hg hstart hg' (.inr rfl) hread, if_neg (by decide)]
  | @more g a v g' as cs hg hv hg' _ ih =>
    simp only [List.append_assoc, List.cons_append, List.length_append, List.length_cons] at hfuel ⊢
    obtain ⟨hstart, hread⟩ := hreads _ _ hv
    obtain ⟨n, hn, hread⟩ := hread _ (hstop hg' (.inl rfl) (cs ++ rest))
    obtain ⟨fuel, rfl⟩ := Nat.exists_eq_add_one_of_ne_zero (show fuel ≠ 0 by omega)
    obtain ⟨ns, hns, hitems⟩ := ih fuel (by rw [List.length_append]; omega)
    refine ⟨n :: ns, .cons hn hns, ?_⟩
    rw [items?_item hg hstart hg' (.inl rfl) hread, if_pos rfl, hitems]
    rfl

theorem IsPair.exists_concat {p : List String} (h : IsPair p v cs) :
    ∃ front last, p = front ++ [last] := by
  obtain ⟨key, a, b, hkey, -⟩ := h
  exact hkey.exists_concat

/-- A key and its value are taken one after the other. -/
theorem pair_append (h : IsPair (front ++ [last]) v cs)
    (hlen : (front ++ [last]).length < depthLimit) (ha : IsBlanks a) (hv : Starts v)
    (hread : value (v ++ rest) = some (n, rest)) :
    ∃ after, key? (a ++ (cs ++ rest)) = some (front, last, '=' :: after) ∧
      value (skipBlanks after) = some (n, rest) := by
  obtain ⟨key, b, c, hkey, hb, hc, rfl⟩ := h
  refine ⟨c ++ (v ++ rest), ?_, ?_⟩
  · have := key?_append hkey hlen ha hb (.inl rfl) (c ++ (v ++ rest))
    simpa only [List.append_assoc, List.cons_append] using this
  · rw [skipBlanks_append hc, hv.skipBlanks_eq, hread]

theorem IsPairs.skipBlanks_eq {ps : List (List String)} (h : IsPairs isValue ps cs)
    (rest : List Char) : ∃ c tail, skipBlanks (cs ++ rest) = c :: tail ∧ c ≠ '\x7d' := by
  cases h with
  | last ha _ hpair | more ha _ hpair =>
    obtain ⟨key, b, c, hkey, -, -, rfl⟩ := hpair
    simp only [List.append_assoc]
    rw [skipBlanks_key ha hkey]
    obtain ⟨d, tail, rfl, hd⟩ := hkey.exists_cons
    exact ⟨d, _, rfl, fun heq => hd (heq ▸ by simp)⟩

theorem pairs?_pair {b : List Char} {m : Char} (ha : IsBlanks a) (h : IsPair (front ++ [last]) v cs)
    (hlen : (front ++ [last]).length < depthLimit) (hv : Starts v) (hb : IsBlanks b)
    (hm : m = ',' ∨ m = '\x7d')
    (hread : value (v ++ (b ++ m :: rest)) = some (n, b ++ m :: rest)) (fuel : Nat) :
    pairs? value (fuel + 1) (a ++ (cs ++ (b ++ m :: rest))) =
      if m = ',' then
        (pairs? value fuel rest).map fun (ps, rest) => ((front, last, n) :: ps, rest)
      else some ([(front, last, n)], rest) := by
  have hmark : skipBlanks (b ++ m :: rest) = m :: rest := by
    rw [skipBlanks_append hb]
    obtain rfl | rfl := hm <;> rfl
  obtain ⟨after, hkey, hvalue⟩ := pair_append h hlen ha hv hread
  rw [pairs?.eq_2, hkey, Option.bind_eq_bind, Option.bind_some]
  dsimp only
  rw [char?_self, Option.bind_eq_bind, Option.bind_some, hvalue, Option.bind_eq_bind,
    Option.bind_some]
  dsimp only
  rw [hmark]
  obtain rfl | rfl := hm <;> rfl

/-- What is read for a key and a value: the key's path, and a node that is a value. -/
def IsReadPair (p : List String) (entry : List String × String × Node) : Prop :=
  p = entry.1 ++ [entry.2.1] ∧ entry.2.2.IsValue

theorem pairs?_append {ps : List (List String)} (h : IsPairs isValue ps cs)
    (hlen : ∀ p ∈ ps, p.length < depthLimit)
    (hreads : ∀ v, isValue v → Reads value v Node.IsValue) (rest : List Char) {fuel : Nat}
    (hfuel : (cs ++ rest).length < fuel) :
    ∃ entries, List.Forall₂ IsReadPair ps entries ∧
      pairs? value fuel (cs ++ rest) = some (entries, rest) := by
  have hstop {b : List Char} {m : Char} (hb : IsBlanks b) (hm : m = ',' ∨ m = '\x7d')
      (rest : List Char) : Stops (b ++ m :: rest) :=
    hb.stops (stops_cons (by obtain rfl | rfl := hm <;> simp) _)
  obtain ⟨fuel, rfl⟩ := Nat.exists_eq_add_one_of_ne_zero (show fuel ≠ 0 by omega)
  induction h generalizing fuel with
  | @last a p v pair b ha hv hpair hb =>
    obtain ⟨hstart, hread⟩ := hreads v hv
    obtain ⟨n, hn, hread⟩ := hread _ (hstop hb (.inr rfl) rest)
    obtain ⟨front, last, rfl⟩ := hpair.exists_concat
    refine ⟨[(front, last, n)], .cons ⟨rfl, hn⟩ .nil, ?_⟩
    simp only [List.append_assoc, List.singleton_append]
    rw [pairs?_pair ha hpair (hlen _ (by simp)) hstart hb (.inr rfl) hread, if_neg (by decide)]
  | @more a p v pair b ps cs ha hv hpair hb _ ih =>
    simp only [List.append_assoc, List.cons_append, List.length_append, List.length_cons] at hfuel ⊢
    obtain ⟨hp, hps⟩ := List.forall_mem_cons.mp hlen
    obtain ⟨hstart, hread⟩ := hreads v hv
    obtain ⟨n, hn, hread⟩ := hread _ (hstop hb (.inl rfl) (cs ++ rest))
    obtain ⟨front, last, rfl⟩ := hpair.exists_concat
    obtain ⟨fuel, rfl⟩ := Nat.exists_eq_add_one_of_ne_zero (show fuel ≠ 0 by omega)
    obtain ⟨entries, hentries, hmore⟩ := ih hps fuel (by rw [List.length_append]; omega)
    refine ⟨(front, last, n) :: entries, .cons ⟨rfl, hn⟩ hentries, ?_⟩
    rw [pairs?_pair ha hpair hp hstart hb (.inl rfl) hread, if_pos rfl, hmore]
    rfl

end

/-! ### Tables in braces -/

theorem Node.IsValue.inside_eq {n : Node} (h : n.IsValue) : n.inside = [] := by
  unfold IsValue at h
  cases n with
  | table origin es => cases origin <;> simp [Node.standing] at h
  | tables elements =>
    cases elements with
    | nil => rfl
    | cons => simp [Node.standing] at h
  | text | boolean | integer | float | moment | array | inline => rfl

namespace Entries

variable {es : Entries} {ps : List (List String)} {path : List String} {key : String} {n : Node}

/-- A table that holds values at some paths, and what dotted keys have made on the way to them. -/
def HoldsAt (es : Entries) (ps : List (List String)) : Prop :=
  ∀ r s, es.names r = some s → (∃ p ∈ ps, r <+: p) ∧ (r ∈ ps ∨ s = .dotted)

theorem HoldsAt.none_or_dotted (h : es.HoldsAt ps) {r : List String} (hr : r ∉ ps) :
    es.names r = none ∨ es.names r = some .dotted := by
  cases hnames : es.names r with
  | none => exact .inl rfl
  | some s => exact .inr (congrArg some ((h r s hnames).2.resolve_left hr))

theorem HoldsAt.assign (h : es.HoldsAt ps) (hps : ∀ p ∈ ps, Apart p (path ++ [key]))
    (hn : n.IsValue) :
    ∃ es', es.assign true path key n = some es' ∧ es'.HoldsAt (ps ++ [path ++ [key]]) := by
  have hnot (r : List String) (hr : r <+: path ++ [key]) : r ∉ ps := fun hmem => (hps r hmem).1 hr
  have hway (r : List String) (_ : r ≠ []) (hr : r <+: path) :
      es.names r = none ∨ es.names r = some .dotted ∨ es.names r = some .parent :=
    (h.none_or_dotted (hnot r (hr.trans (List.prefix_append _ _)))).imp_right .inl
  have hend : if path = [] then true = true else es.names path ≠ some .parent := by
    split
    next => rfl
    next =>
      obtain heq | heq := h.none_or_dotted (hnot path (List.prefix_append _ _)) <;> simp [heq]
  have hfree : es.names (path ++ [key]) = none := by
    cases hnames : es.names (path ++ [key]) with
    | none => rfl
    | some s =>
      obtain ⟨p, hp, hle⟩ := (h _ s hnames).1
      exact absurd hle (hps p hp).2
  obtain ⟨es', hes', hnames⟩ := assign_put hway hend hfree n
  refine ⟨es', hes', fun r s hr => ?_⟩
  rw [hnames, hn.inside_eq, names_empty] at hr
  unfold Names.put Names.under Names.tell at hr
  split at hr
  next => exact absurd hr (by simp [Names.nothing])
  next =>
    split at hr
    next heq =>
      subst heq
      exact ⟨⟨_, by simp, List.prefix_rfl⟩, .inl (by simp)⟩
    next =>
      split at hr
      next hbetween =>
        exact ⟨⟨_, by simp, hbetween.1.2.1⟩, .inr (Option.some.inj hr).symm⟩
      next =>
        obtain ⟨⟨p, hp, hle⟩, hor⟩ := h r s hr
        exact ⟨⟨p, List.mem_append_left _ hp, hle⟩, hor.imp_left (List.mem_append_left _)⟩

theorem HoldsAt.foldlM (h : es.HoldsAt ps) {qs : List (List String)}
    {entries : List (List String × String × Node)} (hentries : List.Forall₂ IsReadPair qs entries)
    (hapart : (ps ++ qs).Pairwise Apart) :
    ∃ es', entries.foldlM (fun es (path, key, n) => Entries.assign true es path key n) es =
      some es' := by
  induction hentries generalizing es ps with
  | nil => exact ⟨es, rfl⟩
  | @cons p entry qs entries hentry _ ih =>
    obtain ⟨path, key, n⟩ := entry
    obtain ⟨rfl, hn⟩ := hentry
    have hps (p : List String) (hp : p ∈ ps) : Apart p (path ++ [key]) :=
      (List.pairwise_append.mp hapart).2.2 p hp _ List.mem_cons_self
    obtain ⟨es', hes', hholds⟩ := h.assign hps hn
    obtain ⟨es'', hes''⟩ := ih hholds (by simpa using hapart)
    refine ⟨es'', ?_⟩
    dsimp only at hes'
    simp only [List.foldlM_cons, hes', Option.bind_eq_bind, Option.bind_some, hes'']

end Entries

/-- Pairs that are not in each other's way make a table. -/
theorem exists_inlineEntries? {ps : List (List String)}
    {entries : List (List String × String × Node)} (h : List.Forall₂ IsReadPair ps entries)
    (hapart : ps.Pairwise Apart) : ∃ es, inlineEntries? entries = some es := by
  have hempty : Entries.HoldsAt [] [] := by
    intro r s hr
    rw [Entries.names_empty] at hr
    contradiction
  exact hempty.foldlM h hapart

/-! ### Values -/

section

variable {v cs : List Char} {depth : Nat}

theorem IsString.exists_cons (h : IsString cs) :
    ∃ tail, cs = '"' :: tail ∨ cs = '\'' :: tail := by
  cases h with
  | basic h => obtain ⟨body, -, rfl⟩ := h; exact ⟨_, .inl rfl⟩
  | literal h => exact ⟨_, .inr h.2⟩
  | basicLines => exact ⟨_, .inl rfl⟩
  | literalLines => exact ⟨_, .inr rfl⟩

theorem value?_string (h : IsString cs) (depth : Nat) (rest : List Char) :
    value? depth (cs ++ rest) =
      (string? (cs ++ rest)).map fun (s, rest) => (.text (String.ofList s), rest) := by
  obtain ⟨tail, rfl | rfl⟩ := h.exists_cons
  · exact value?.eq_7 depth _
  · exact value?.eq_8 depth _

theorem Stops.not_quote {rest : List Char} (h : Stops rest) :
    rest.head? ≠ some '"' ∧ rest.head? ≠ some '\'' := by
  have hall : ∀ c ∈ stopMarks, c ≠ '"' ∧ c ≠ '\'' := by simp [stopMarks]
  exact ⟨fun hc => (hall _ (h.mem hc)).1 rfl, fun hc => (hall _ (h.mem hc)).2 rfl⟩

/-- What a number or a point in time may start with. -/
def numericMarks : List Char :=
  ['+', '-', 'i', 'n']

theorem value?_numeric {c : Char} (hc : c.isDigit = true ∨ c ∈ numericMarks) (depth : Nat)
    (tail : List Char) : value? depth (c :: tail) = numeric? (c :: tail) := by
  have hne {d : Char} (hd : d.isDigit = false ∧ d ∉ numericMarks) : c ≠ d := by
    rintro rfl
    rw [hd.1] at hc
    exact hc.elim Bool.false_ne_true hd.2
  have hcons {d : Char} {cs : List Char} (hd : d.isDigit = false ∧ d ∉ numericMarks) :
      c :: tail ≠ d :: cs :=
    fun heq => hne hd (List.cons.inj heq).1
  apply value?.eq_9 <;> intros _ heq <;> exact hcons (by decide) heq

theorem IsSign.exists_start {negative : Bool} {s : List Char} (hs : IsSign negative s) (c : Char)
    (tail : List Char) : ∃ d more, s ++ c :: tail = d :: more ∧ (d = c ∨ d ∈ numericMarks) := by
  cases hs with
  | none => exact ⟨c, tail, rfl, .inl rfl⟩
  | plus | minus => exact ⟨_, _, rfl, .inr (by decide)⟩

theorem IsWhole.exists_start {negative : Bool} {s ds w : List Char} (hs : IsSign negative s)
    (hw : IsWhole ds w) (rest : List Char) :
    ∃ c tail, s ++ (w ++ rest) = c :: tail ∧ (c.isDigit = true ∨ c ∈ numericMarks) := by
  obtain ⟨d, tail, rfl, hd⟩ := hw.exists_cons
  obtain ⟨c, more, heq, hc⟩ := hs.exists_start d (tail ++ rest)
  exact ⟨c, more, heq, hc.imp_left fun (h : c = d) => h ▸ hd⟩

theorem IsInteger.exists_start {n : Int} (h : IsInteger n cs) :
    ∃ c tail, cs = c :: tail ∧ (c.isDigit = true ∨ c ∈ numericMarks) := by
  cases h with
  | decimal hs hw => simpa using hw.exists_start hs []
  | hexadecimal | octal | binary => exact ⟨_, _, rfl, .inl (by decide)⟩

theorem IsDecimal.exists_start {negative : Bool} {m : Nat} {e : Int}
    (h : IsDecimal negative m e cs) :
    ∃ c tail, cs = c :: tail ∧ (c.isDigit = true ∨ c ∈ numericMarks) := by
  cases h with
  | fraction hs hw | exponent hs hw | both hs hw => exact hw.exists_start hs _

theorem IsSpecial.exists_start (h : IsSpecial cs) :
    ∃ c tail, cs = c :: tail ∧ (c.isDigit = true ∨ c ∈ numericMarks) := by
  cases h with
  | infinite hs | undefined hs =>
    obtain ⟨d, more, heq, rfl | hd⟩ := hs.exists_start _ _
    · exact ⟨_, _, heq, .inr (by decide)⟩
    · exact ⟨d, more, heq, .inr hd⟩

theorem exists_digit {ds : List Char} (h : Digits.AreDigits ds) (hlen : 0 < ds.length)
    (rest : List Char) : ∃ c tail, ds ++ rest = c :: tail ∧ c.isDigit = true := by
  obtain ⟨c, tail, rfl⟩ := List.exists_cons_of_length_pos hlen
  exact ⟨c, tail ++ rest, rfl, h c List.mem_cons_self⟩

theorem IsMoment.exists_start (h : IsMoment cs) : ∃ c tail, cs = c :: tail ∧ c.isDigit = true := by
  have hdate {d : List Char} (hd : Calendar.IsDate d) (rest : List Char) :
      ∃ c tail, d ++ rest = c :: tail ∧ c.isDigit = true := by
    obtain ⟨yyyy, ⟨hyyyy, hlen⟩, mm, dd, rfl, -⟩ := hd
    rw [List.append_assoc, List.append_assoc]
    exact exists_digit hyyyy (by omega) _
  cases h with
  | date hd => simpa using hdate hd []
  | both hd => exact hdate hd _
  | time ht =>
    cases ht with
    | mk hh => exact exists_digit hh.1 (by have := hh.2.1; omega) _

/-- What starts like a number starts no mark. -/
theorem not_stopMark {c : Char} (h : c.isDigit = true ∨ c ∈ numericMarks) : c ∉ stopMarks := by
  have hall : ∀ c ∈ stopMarks, c.isDigit = false ∧ c ∉ numericMarks := by
    simp [stopMarks, numericMarks]
  intro hc
  rw [(hall c hc).1] at h
  exact h.elim Bool.false_ne_true (hall c hc).2

/-- What is read by its own grammar and starts like a number is read as a value. -/
theorem reads_of_numeric {n : Node} (hn : n.IsValue)
    (hstart : ∃ c tail, v = c :: tail ∧ (c.isDigit = true ∨ c ∈ numericMarks))
    (hread : ∀ rest, Stops rest → numeric? (v ++ rest) = some (n, rest)) (depth : Nat) :
    Reads (value? depth) v Node.IsValue := by
  obtain ⟨c, tail, rfl, hc⟩ := hstart
  refine ⟨⟨c, tail, rfl, not_stopMark hc⟩, fun rest hrest => ⟨n, hn, ?_⟩⟩
  rw [List.cons_append, value?_numeric hc, ← List.cons_append, hread rest hrest]

theorem numeric?_moment (h : IsMoment v) {rest : List Char} (hrest : Stops rest) :
    numeric? (v ++ rest) = some (.moment, rest) := by
  rw [numeric?, moment?_append h hrest]

theorem IsDecimal.exists_whole {negative : Bool} {m : Nat} {e : Int} (h : IsDecimal negative m e cs)
    (rest : List Char) : ∃ s ds w c tail, IsSign negative s ∧ IsWhole ds w ∧
      cs ++ rest = s ++ (w ++ c :: tail) ∧ c ∈ ['.', 'e', 'E'] := by
  cases h with
  | @fraction s ds w fs f hs hw => exact ⟨s, ds, w, '.', f ++ rest, hs, hw, by simp, by simp⟩
  | @both s ds w fs f e x hs hw =>
    exact ⟨s, ds, w, '.', f ++ (x ++ rest), hs, hw, by simp, by simp⟩
  | @exponent s ds w e x hs hw hx =>
    obtain ⟨c, x, rfl, hc⟩ := hx.exists_cons
    exact ⟨s, ds, w, c, x ++ rest, hs, hw, by simp, by simp [hc]⟩

theorem numeric?_decimal {negative : Bool} {m : Nat} {e : Int} (h : IsDecimal negative m e v)
    (hfits : negative = false → FitsDouble m e) {rest : List Char} (hrest : Stops rest) :
    numeric? (v ++ rest) = some (.float, rest) := by
  have hfloat := float?_append h hfits hrest
  obtain ⟨s, ds, w, c, tail, hs, hw, heq, hc⟩ := h.exists_whole rest
  have hall : ∀ c ∈ ['.', 'e', 'E'], c.isDigit = false ∧ c ≠ '-' ∧ c ≠ ':' := by simp
  have hmoment : moment? (s ++ (w ++ c :: tail)) = none :=
    moment?_append_eq_none hs hw.isRun fun d hd => hall d (Option.some.inj hd ▸ hc)
  rw [heq] at hfloat ⊢
  simp only [numeric?, hmoment, hfloat]

theorem IsInteger.exists_whole {n : Int} (h : IsInteger n cs) {rest : List Char}
    (hrest : Stops rest) : ∃ negative s ds w tail, IsSign negative s ∧ IsWhole ds w ∧
      cs ++ rest = s ++ (w ++ tail) ∧ ∀ c, tail.head? = some c →
        (c.isDigit = false ∧ c ≠ '-' ∧ c ≠ ':') ∧ c ≠ '_' ∧ c ≠ '.' ∧ c ≠ 'e' ∧ c ≠ 'E' := by
  cases h with
  | decimal hs hw =>
    have hall : ∀ c ∈ stopMarks, (c.isDigit = false ∧ c ≠ '-' ∧ c ≠ ':') ∧
        c ≠ '_' ∧ c ≠ '.' ∧ c ≠ 'e' ∧ c ≠ 'E' := by
      simp [stopMarks]
    exact ⟨_, _, _, _, rest, hs, hw, List.append_assoc _ _ _, fun c hc => hall c (hrest.mem hc)⟩
  | hexadecimal | octal | binary =>
    refine ⟨false, [], ['0'], ['0'], _, .none, .zero, rfl, ?_⟩
    rintro c hc
    obtain rfl := Option.some.inj hc
    decide

theorem numeric?_integer {n : Int} (h : IsInteger n v) (hfits : FitsInteger n) {rest : List Char}
    (hrest : Stops rest) : numeric? (v ++ rest) = some (.integer n, rest) := by
  have hinteger := integer?_append h hfits hrest
  obtain ⟨negative, s, ds, w, tail, hs, hw, heq, htail⟩ := h.exists_whole hrest
  have hfloat : float? (s ++ (w ++ tail)) = none := by
    apply float?_eq_none hs hw
    exact fun c hc => ⟨(htail c hc).1.1, (htail c hc).2⟩
  have hmoment : moment? (s ++ (w ++ tail)) = none :=
    moment?_append_eq_none hs hw.isRun fun c hc => (htail c hc).1
  rw [heq] at hinteger ⊢
  simp only [numeric?, hmoment, hfloat, hinteger, Option.map_some]

theorem numeric?_special (h : IsSpecial v) (rest : List Char) :
    numeric? (v ++ rest) = some (.float, rest) := by
  have hmoment : moment? (v ++ rest) = none := by
    cases h with
    | infinite hs | undefined hs => cases hs <;> exact moment?_cons_eq_none (by decide) _
  rw [numeric?, hmoment, float?_special h]

theorem IsString.starts (h : IsString cs) : Starts cs := by
  obtain ⟨tail, rfl | rfl⟩ := h.exists_cons
  · exact ⟨_, _, rfl, by decide⟩
  · exact ⟨_, _, rfl, by decide⟩

theorem Quotes.reads {s : String} (h : Quotes s v) (depth : Nat) :
    Reads (value? depth) v (· = .text s) := by
  refine ⟨(IsString.basic h).starts, fun rest hrest => ⟨_, rfl, ?_⟩⟩
  rw [value?_string (.basic h), string?_quotes h hrest.not_quote.1, Option.map_some]
  dsimp only
  rw [String.ofList_toList]

theorem IsScalar.reads (h : IsScalar True v) (depth : Nat) :
    Reads (value? depth) v Node.IsValue := by
  cases h with
  | string h =>
    refine ⟨h.starts, fun rest hrest => ?_⟩
    obtain ⟨s, hs⟩ := h.ends hrest.not_quote
    refine ⟨.text (String.ofList s), rfl, ?_⟩
    rw [value?_string h, hs]
    rfl
  | true =>
    exact ⟨⟨_, _, rfl, by decide⟩, fun rest _ => ⟨.boolean Bool.true, rfl, value?.eq_5 depth rest⟩⟩
  | false =>
    exact ⟨⟨_, _, rfl, by decide⟩, fun rest _ => ⟨.boolean Bool.false, rfl, value?.eq_6 depth rest⟩⟩
  | @integer n _ h hfits =>
    have hn : (Node.integer n).IsValue := rfl
    exact reads_of_numeric hn h.exists_start (fun _ => numeric?_integer h (hfits trivial)) depth
  | decimal h hfits =>
    have hn : Node.float.IsValue := rfl
    exact reads_of_numeric hn h.exists_start (fun _ => numeric?_decimal h (hfits trivial)) depth
  | special h =>
    have hn : Node.float.IsValue := rfl
    exact reads_of_numeric hn h.exists_start (fun rest _ => numeric?_special h rest) depth
  | moment h =>
    have hn : Node.moment.IsValue := rfl
    obtain ⟨c, tail, heq, hc⟩ := h.exists_start
    exact reads_of_numeric hn ⟨c, tail, heq, .inl hc⟩ (fun _ => numeric?_moment h) depth

theorem IsArray.reads {α : Type} {writes : α → List Char → Prop} {known : α → Node → Prop}
    {as : List α} (h : IsArray writes as v)
    (hreads : ∀ a v, writes a v → Reads (value? depth) v (known a)) :
    Reads (value? (depth + 1)) v fun n => ∃ ns, List.Forall₂ known as ns ∧ n = .array ns := by
  obtain ⟨body, hbody, rfl⟩ := h
  refine ⟨⟨_, _, rfl, by decide⟩, fun rest _ => ?_⟩
  obtain ⟨ns, hns, hitems⟩ := items?_append hbody hreads rest (Nat.lt_succ_self _)
  refine ⟨.array ns, ⟨ns, hns, rfl⟩, ?_⟩
  rw [List.cons_append, value?.eq_2, hitems]
  rfl

theorem IsInlineTable.reads {isValue : List Char → Prop} (h : IsInlineTable True isValue v)
    (hreads : ∀ v, isValue v → Reads (value? depth) v Node.IsValue) :
    Reads (value? (depth + 1)) v Node.IsValue := by
  cases h with
  | @empty a ha =>
    refine ⟨⟨_, _, rfl, by decide⟩, fun rest _ => ⟨.inline [], rfl, ?_⟩⟩
    rw [List.cons_append, value?.eq_4, List.append_assoc, skipBlanks_append ha]
    rfl
  | @pairs ps cs hps hapart hlen =>
    refine ⟨⟨_, _, rfl, by decide⟩, fun rest _ => ?_⟩
    obtain ⟨entries, hentries, hpairs⟩ :=
      pairs?_append hps (hlen trivial) hreads rest (Nat.lt_succ_self _)
    obtain ⟨es, hes⟩ := exists_inlineEntries? hentries hapart
    refine ⟨.inline es, rfl, ?_⟩
    rw [List.cons_append, value?.eq_4]
    split
    next heq =>
      obtain ⟨c, tail, hskip, hc⟩ := hps.skipBlanks_eq rest
      rw [hskip] at heq
      exact absurd (List.cons.inj heq).1 hc
    next =>
      rw [hpairs, Option.bind_eq_bind, Option.bind_some]
      dsimp only
      rw [hes]
      rfl

/-- An array is a value, whatever it is that its items write. -/
theorem IsArray.isValue {bounded : Prop} {α : Type} {writes : α → List Char → Prop} {as : List α}
    (h : IsArray writes as v) (hwrites : ∀ a w, writes a w → IsValue bounded depth w) :
    IsValue bounded (depth + 1) v := by
  obtain ⟨body, hbody, rfl⟩ := h
  have hitems : ∃ vs, IsItems (fun v w => w = v ∧ IsValue bounded depth v) vs body := by
    induction hbody with
    | close hg => exact ⟨[], .close hg⟩
    | last hg hv hg' => exact ⟨_, .last hg ⟨rfl, hwrites _ _ hv⟩ hg'⟩
    | more hg hv hg' _ ih =>
      obtain ⟨vs, hvs⟩ := ih
      exact ⟨_, .more hg ⟨rfl, hwrites _ _ hv⟩ hg' hvs⟩
  obtain ⟨vs, hvs⟩ := hitems
  exact .inr (.inl ⟨vs, body, hvs, rfl⟩)

/-- A value within the bounds is taken to its end. -/
theorem IsValue.reads {depth bound : Nat} (h : IsValue True depth v) (hle : depth ≤ bound) :
    Reads (value? bound) v Node.IsValue := by
  induction depth generalizing bound v with
  | zero => exact IsScalar.reads h bound
  | succ depth ih =>
    obtain ⟨bound, rfl⟩ := Nat.exists_eq_add_one_of_ne_zero (show bound ≠ 0 by omega)
    have hle := Nat.le_of_succ_le_succ hle
    obtain h | ⟨vs, h⟩ | h := h
    · exact h.reads _
    · have hitem (a w : List Char) (hw : w = a ∧ IsValue True depth a) :
          Reads (value? bound) w Node.IsValue := by
        obtain ⟨rfl, ha⟩ := hw
        exact ih ha hle
      apply (h.reads hitem).mono
      rintro n ⟨ns, -, rfl⟩
      rfl
    · exact h.reads fun w hw => ih hw hle

end

end Sidecar.Toml
