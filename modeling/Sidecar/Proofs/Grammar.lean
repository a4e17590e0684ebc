import Mathlib.Data.List.Forall2
import Sidecar.Proofs.Quoting

/-! JSON text by its grammar, blanks included. Whatever value the grammar allows, a reader that
passes over it stops right behind it, and what it has read is put together from what it has read of
the parts. -/

namespace Sidecar.Json

def IsBlank (cs : List Char) : Prop :=
  ∀ c ∈ cs, isSpace c = true

/-- How the text of a value starts: neither with a blank nor with a mark that divides or ends. -/
def Starts (cs : List Char) : Prop :=
  ∃ c, cs.head? = some c ∧ isSpace c = false ∧ c ≠ ',' ∧ c ≠ ']' ∧ c ≠ '\x7d'

/-- What may stand behind a value. -/
def Stops (rest : List Char) : Prop :=
  ∀ c, rest.head? = some c → isSpace c = true ∨ c = ',' ∨ c = ']' ∨ c = '\x7d'

/-- Texts with commas between them, each with blanks around it. -/
inductive Separated : List (List Char) → List Char → Prop where
  | none {a} : IsBlank a → Separated [] a
  | last {a b v} : IsBlank a → IsBlank b → Separated [v] (a ++ v ++ b)
  | more {a b v w vs body} : IsBlank a → IsBlank b → Separated (w :: vs) body →
      Separated (v :: w :: vs) (a ++ v ++ b ++ ',' :: body)

def IsDigits (ds : List Char) : Prop :=
  ds ≠ [] ∧ ∀ d ∈ ds, d.isDigit = true

/-- The digits before a point: a zero on its own, or digits that do not start with one. -/
def IsWhole (ds : List Char) : Prop :=
  IsDigits ds ∧ (ds.head? = some '0' → ds = ['0'])

inductive IsFraction : Option (List Char) → List Char → Prop where
  | none : IsFraction none []
  | digits {ds} : IsDigits ds → IsFraction (some ds) ('.' :: ds)

inductive IsExponent : Option (Bool × List Char) → List Char → Prop where
  | none : IsExponent none []
  | bare {e ds} : e = 'e' ∨ e = 'E' → IsDigits ds → IsExponent (some (false, ds)) (e :: ds)
  | plus {e ds} : e = 'e' ∨ e = 'E' → IsDigits ds → IsExponent (some (false, ds)) (e :: '+' :: ds)
  | minus {e ds} : e = 'e' ∨ e = 'E' → IsDigits ds → IsExponent (some (true, ds)) (e :: '-' :: ds)

inductive Numeral.Written : Numeral → List Char → Prop where
  | unsigned {ds f fs x xs} : IsWhole ds → IsFraction f fs → IsExponent x xs →
      Written ⟨false, ds, f, x⟩ (ds ++ (fs ++ xs))
  | negative {ds f fs x xs} : IsWhole ds → IsFraction f fs → IsExponent x xs →
      Written ⟨true, ds, f, x⟩ ('-' :: (ds ++ (fs ++ xs)))

/-- What the grammar derives. -/
inductive Nonterminal where
  | value
  | member

inductive WellFormed : Nonterminal → List Char → Prop where
  | null : WellFormed .value "null".toList
  | yes : WellFormed .value "true".toList
  | no : WellFormed .value "false".toList
  | numeral {n cs} : Numeral.Written n cs → WellFormed .value cs
  | text {cs} : IsQuoted cs → WellFormed .value cs
  | array {items body} : Separated items body → (∀ v ∈ items, WellFormed .value v) →
      WellFormed .value ('[' :: (body ++ [']']))
  | object {members body} : Separated members body → (∀ m ∈ members, WellFormed .member m) →
      WellFormed .value ('\x7b' :: (body ++ ['\x7d']))
  | member {key a b v} : IsQuoted key → IsBlank a → IsBlank b → WellFormed .value v →
      WellFormed .member (key ++ (a ++ ':' :: (b ++ v)))

/-! Blanks. -/

theorem isBlank_nil : IsBlank [] := by
  simp [IsBlank]

theorem skipSpace_append {a : List Char} (h : IsBlank a) (cs : List Char) :
    skipSpace (a ++ cs) = skipSpace cs :=
  List.dropWhile_append_of_pos h

theorem skipSpace_cons {c : Char} (h : isSpace c = false) (cs : List Char) :
    skipSpace (c :: cs) = c :: cs :=
  List.dropWhile_cons_of_neg (by simp [h])

theorem skipSpace_skipSpace (cs : List Char) : skipSpace (skipSpace cs) = skipSpace cs := by
  have hblank : IsBlank (cs.takeWhile isSpace) := List.all_eq_true.mp List.all_takeWhile
  have hcs : cs.takeWhile isSpace ++ skipSpace cs = cs := List.takeWhile_append_dropWhile
  rw [← skipSpace_append hblank, hcs]

theorem skipSpace_eq_nil {a : List Char} (h : IsBlank a) : skipSpace a = [] := by
  rw [← List.append_nil a, skipSpace_append h]
  rfl

theorem Starts.exists_cons {cs : List Char} (h : Starts cs) : ∃ c tail, cs = c :: tail ∧
    isSpace c = false ∧ c ≠ ',' ∧ c ≠ ']' ∧ c ≠ '\x7d' := by
  have ⟨c, hc, hstart⟩ := h
  have ⟨tail, htail⟩ := List.head?_eq_some_iff.mp hc
  exact ⟨c, tail, htail, hstart⟩

theorem starts_cons {c : Char} (tail : List Char)
    (h : isSpace c = false ∧ c ≠ ',' ∧ c ≠ ']' ∧ c ≠ '\x7d') : Starts (c :: tail) :=
  ⟨c, rfl, h⟩

/-- Blanks before a value are passed over, and nothing of the value. -/
theorem Starts.skipSpace_eq {cs : List Char} (h : Starts cs) {a : List Char} (ha : IsBlank a)
    (rest : List Char) : skipSpace (a ++ (cs ++ rest)) = cs ++ rest := by
  obtain ⟨c, tail, rfl, hc, _⟩ := h.exists_cons
  rw [skipSpace_append ha, List.cons_append, skipSpace_cons hc]

theorem skipSpace_mark {a : List Char} (ha : IsBlank a) {c : Char} (hc : isSpace c = false)
    (rest : List Char) : skipSpace (a ++ c :: rest) = c :: rest := by
  rw [skipSpace_append ha, skipSpace_cons hc]

theorem stops_of_blank {b : List Char} (hb : IsBlank b) {rest : List Char} (h : Stops rest) :
    Stops (b ++ rest) := by
  intro c hc
  cases b with
  | nil => exact h c hc
  | cons d b => exact .inl (Option.some.inj hc ▸ hb d List.mem_cons_self)

theorem stops_cons {c : Char} (h : c = ',' ∨ c = ']' ∨ c = '\x7d') (rest : List Char) :
    Stops (c :: rest) :=
  fun _ hc => .inr (Option.some.inj hc ▸ h)

/-! Numerals. -/

/-- No digit, point or exponent follows. -/
theorem Stops.not_numeral {rest : List Char} (h : Stops rest) {c : Char}
    (hc : rest.head? = some c) : c.isDigit = false ∧ c ≠ '.' ∧ c ≠ 'e' ∧ c ≠ 'E' := by
  have hmark : ∀ c ∈ [' ', '\n', '\t', '\r', ',', ']', '\x7d'],
      c.isDigit = false ∧ c ≠ '.' ∧ c ≠ 'e' ∧ c ≠ 'E' := by
    simp
  apply hmark
  have := h c hc
  simp only [isSpace, Bool.or_eq_true, beq_iff_eq, or_assoc] at this
  simpa using this

theorem digitsOf_append {ds rest : List Char} (h : IsDigits ds)
    (hrest : ∀ c, rest.head? = some c → c.isDigit = false) :
    digitsOf (ds ++ rest) = some (ds, rest) := by
  have htake : rest.takeWhile Char.isDigit = [] := by
    cases rest with
    | nil => rfl
    | cons c rest => exact List.takeWhile_cons_of_neg (by simp [hrest c rfl])
  have hdrop : rest.dropWhile Char.isDigit = rest := by
    cases rest with
    | nil => rfl
    | cons c rest => exact List.dropWhile_cons_of_neg (by simp [hrest c rfl])
  simp only [digitsOf, List.takeWhile_append_of_pos h.2, List.dropWhile_append_of_pos h.2, htake,
    hdrop, List.append_nil, h.1, if_false]

theorem scanWhole_append {ds rest : List Char} (h : IsWhole ds)
    (hrest : ∀ c, rest.head? = some c → c.isDigit = false) :
    scanWhole (ds ++ rest) = some (ds, rest) := by
  have hzero : ¬(ds.head? = some '0' ∧ ds.length ≠ 1) := fun ⟨hhead, hlen⟩ =>
    hlen (by rw [h.2 hhead]; rfl)
  simp only [scanWhole, digitsOf_append h.1 hrest, bind, Option.bind, hzero, if_false, pure]

theorem scanFraction_append {f : Option (List Char)} {fs rest : List Char} (h : IsFraction f fs)
    (hrest : ∀ c, rest.head? = some c → c.isDigit = false ∧ c ≠ '.') :
    scanFraction (fs ++ rest) = some (f, rest) := by
  cases h with
  | none =>
    rw [List.nil_append]
    unfold scanFraction
    split
    next => exact absurd rfl (hrest '.' rfl).2
    next => rfl
  | digits hds =>
    rw [List.cons_append, scanFraction, digitsOf_append hds fun c hc => (hrest c hc).1]
    rfl

theorem scanExponent_append {x : Option (Bool × List Char)} {xs rest : List Char}
    (h : IsExponent x xs) (hrest : Stops rest) : scanExponent (xs ++ rest) = some (x, rest) := by
  have hdigits : ∀ c, rest.head? = some c → c.isDigit = false :=
    fun c hc => (hrest.not_numeral hc).1
  cases h with
  | none =>
    cases rest with
    | nil => rfl
    | cons c rest =>
      have ⟨_, _, hlower, hupper⟩ := hrest.not_numeral rfl
      unfold scanExponent
      exact if_neg (not_or.mpr ⟨hlower, hupper⟩)
  | @bare e ds he hds =>
    obtain ⟨d, tail, rfl⟩ := List.exists_cons_of_ne_nil hds.1
    have hd := hds.2 d List.mem_cons_self
    have hminus : d ≠ '-' := by
      rintro rfl
      contradiction
    have hplus : d ≠ '+' := by
      rintro rfl
      contradiction
    rw [List.cons_append, scanExponent.eq_4 _ _ (by simp [hminus]) (by simp [hplus]), if_pos he,
      digitsOf_append hds hdigits]
    rfl
  | plus he hds =>
    rw [List.cons_append, List.cons_append, scanExponent, if_pos he, digitsOf_append hds hdigits]
    rfl
  | minus he hds =>
    rw [List.cons_append, List.cons_append, scanExponent, if_pos he, digitsOf_append hds hdigits]
    rfl

theorem IsFraction.not_digit {f : Option (List Char)} {fs rest : List Char} (h : IsFraction f fs)
    (hrest : ∀ c, rest.head? = some c → c.isDigit = false) {c : Char}
    (hc : (fs ++ rest).head? = some c) : c.isDigit = false := by
  cases h with
  | none => exact hrest c hc
  | digits =>
    obtain rfl := Option.some.inj hc
    decide

theorem IsExponent.not_fraction {x : Option (Bool × List Char)} {xs rest : List Char}
    (h : IsExponent x xs) (hrest : Stops rest) {c : Char} (hc : (xs ++ rest).head? = some c) :
    c.isDigit = false ∧ c ≠ '.' := by
  cases h with
  | none =>
    have ⟨hdigit, hpoint, _⟩ := hrest.not_numeral hc
    exact ⟨hdigit, hpoint⟩
  | bare he | plus he | minus he =>
    obtain rfl := Option.some.inj hc
    rcases he with rfl | rfl <;> decide

/-- A numeral is read to its end. -/
theorem scanNumeral_append {n : Numeral} {cs rest : List Char} (h : n.Written cs)
    (hrest : Stops rest) : scanNumeral (cs ++ rest) = some (n, rest) := by
  have hparts {ds f fs x xs} (hds : IsWhole ds) (hf : IsFraction f fs) (hx : IsExponent x xs) :
      scanWhole (ds ++ (fs ++ (xs ++ rest))) = some (ds, fs ++ (xs ++ rest)) ∧
      scanFraction (fs ++ (xs ++ rest)) = some (f, xs ++ rest) ∧
      scanExponent (xs ++ rest) = some (x, rest) := by
    have hbehind (c : Char) := hx.not_fraction hrest (c := c)
    exact ⟨scanWhole_append hds fun c hc => hf.not_digit (fun d hd => (hbehind d hd).1) hc,
      scanFraction_append hf hbehind, scanExponent_append hx hrest⟩
  cases h with
  | @unsigned ds f fs x xs hds hf hx =>
    have ⟨hwhole, hfraction, hexponent⟩ := hparts hds hf hx
    have hsign : ∀ tail, ds ++ (fs ++ (xs ++ rest)) ≠ '-' :: tail := by
      intro tail heq
      obtain ⟨d, more, rfl⟩ := List.exists_cons_of_ne_nil hds.1.1
      have hd := hds.1.2 d List.mem_cons_self
      rw [(List.cons.inj heq).1] at hd
      contradiction
    rw [List.append_assoc, List.append_assoc]
    simp only [scanNumeral, hwhole, hfraction, hexponent, bind, Option.bind, pure]
  | negative hds hf hx =>
    have ⟨hwhole, hfraction, hexponent⟩ := hparts hds hf hx
    simp only [scanNumeral, List.cons_append, List.append_assoc, hwhole, hfraction, hexponent, bind,
      Option.bind, pure]

theorem starts_of_isDigit {d : Char} (h : d.isDigit = true) (tail : List Char) :
    Starts (d :: tail) := by
  refine starts_cons tail ⟨?_, ?_, ?_, ?_⟩
  · cases hspace : isSpace d with
    | false => rfl
    | true =>
      have hnot : ∀ c ∈ [' ', '\n', '\t', '\r'], c.isDigit = false := by simp
      have hmem : d ∈ [' ', '\n', '\t', '\r'] := by
        simpa [isSpace, or_assoc] using hspace
      rw [hnot d hmem] at h
      contradiction
  all_goals
    rintro rfl
    contradiction

theorem Numeral.Written.exists_cons {n : Numeral} {cs : List Char} (h : n.Written cs) :
    ∃ c tail, cs = c :: tail ∧ (c = '-' ∨ c.isDigit = true) := by
  cases h with
  | unsigned hds =>
    obtain ⟨d, tail, rfl⟩ := List.exists_cons_of_ne_nil hds.1.1
    exact ⟨d, _, rfl, .inr (hds.1.2 d List.mem_cons_self)⟩
  | negative => exact ⟨'-', _, rfl, .inl rfl⟩

theorem Numeral.Written.starts {n : Numeral} {cs : List Char} (h : n.Written cs) : Starts cs := by
  obtain ⟨c, tail, rfl, rfl | hdigit⟩ := h.exists_cons
  · exact starts_cons tail (by decide)
  · exact starts_of_isDigit hdigit tail

theorem IsQuoted.starts {cs : List Char} (h : IsQuoted cs) : Starts cs := by
  obtain ⟨_, _, _, rfl⟩ := h
  exact starts_cons _ (by decide)

theorem WellFormed.starts {cs : List Char} (h : WellFormed .value cs) : Starts cs := by
  cases h with
  | null | yes | no | array | object => exact starts_cons _ (by decide)
  | numeral h => exact h.starts
  | text h => exact h.starts

theorem separated_intercalate : ∀ vs : List (List Char), Separated vs (List.intercalate [','] vs)
  | [] => .none isBlank_nil
  | [v] => by
    have h := Separated.last (v := v) isBlank_nil isBlank_nil
    simpa using h
  | v :: w :: vs => by
    have h := Separated.more (v := v) isBlank_nil isBlank_nil (separated_intercalate (w :: vs))
    simpa [List.intercalate] using h

/-- There are no more texts than one for each comma and one beside. -/
theorem Separated.length_le {items : List (List Char)} {body : List Char}
    (h : Separated items body) : items.length ≤ body.length + 1 := by
  induction h with
  | none | last => simp
  | more _ _ _ ih =>
    simp only [List.length_append, List.length_cons] at ih ⊢
    omega

theorem enclosed_append (first last : Char) (body rest : List Char) :
    first :: (body ++ [last]) ++ rest = first :: (body ++ last :: rest) := by
  simp

theorem Separated.isBlank {body : List Char} (h : Separated [] body) : IsBlank body := by
  cases h
  assumption

/-- The first of some texts stands behind the blanks. -/
theorem Separated.exists_skipSpace {v body : List Char} {vs : List (List Char)}
    (h : Separated (v :: vs) body) (hv : Starts v) (rest : List Char) :
    ∃ tail, skipSpace (body ++ rest) = v ++ tail := by
  cases h with
  | @last a b _ ha =>
    rw [List.append_assoc, List.append_assoc, hv.skipSpace_eq ha]
    exact ⟨_, rfl⟩
  | @more a b _ _ _ body ha =>
    rw [List.append_assoc, List.append_assoc, List.append_assoc, hv.skipSpace_eq ha]
    exact ⟨_, rfl⟩

/-! Passing over a value. -/

section

variable {take : List Piece → Option String} {fuel : Nat} {rest : List Char}

theorem readValue_append {a : List Char} (h : IsBlank a) (cs : List Char) :
    readValue take fuel (a ++ cs) = readValue take fuel cs := by
  unfold readValue
  rw [skipSpace_append h]

/-- The reader, given steps enough, takes a text for a value and stops behind it. -/
def TakenAs (take : List Piece → Option String) (j : Json) (v : List Char) : Prop :=
  ∀ fuel rest, 2 * v.length ≤ fuel → Stops rest →
    readValue take fuel (v ++ rest) = some (j, rest)

/-- A value takes a step at least, which starts where it does. -/
theorem takenAs_of_starts {j : Json} {v : List Char} (hv : Starts v)
    (h : ∀ fuel rest, 2 * v.length ≤ fuel + 1 → Stops rest → skipSpace (v ++ rest) = v ++ rest →
      readValue take (fuel + 1) (v ++ rest) = some (j, rest)) : TakenAs take j v := by
  intro fuel rest hfuel hrest
  obtain ⟨c, tail, rfl, _⟩ := hv.exists_cons
  cases fuel with
  | zero => simp at hfuel
  | succ fuel => exact h fuel rest hfuel hrest (hv.skipSpace_eq isBlank_nil rest)

theorem takenAs_null : TakenAs take .null "null".toList := by
  refine takenAs_of_starts (starts_cons _ (by decide)) fun fuel rest _ _ hskip => ?_
  unfold readValue
  rw [hskip]
  rfl

theorem takenAs_boolean (b : Bool) :
    TakenAs take (.boolean b) (if b then "true" else "false").toList := by
  cases b with
  | false | true =>
    refine takenAs_of_starts (starts_cons _ (by decide)) fun fuel rest _ _ hskip => ?_
    unfold readValue
    rw [hskip]
    rfl

theorem takenAs_numeral {n : Numeral} {cs : List Char} (h : n.Written cs) :
    TakenAs take (if n.isInteger then .integer n.toInt else .real n) cs := by
  refine takenAs_of_starts h.starts fun fuel rest _ hrest hskip => ?_
  have hscan := scanNumeral_append h hrest
  obtain ⟨c, tail, rfl, hc⟩ := h.exists_cons
  have hother : ∀ d ∈ ['n', 't', 'f', '"', '[', '\x7b'], c ≠ d := by
    rintro d hd rfl
    have hnot : ∀ d ∈ ['n', 't', 'f', '"', '[', '\x7b'], d ≠ '-' ∧ d.isDigit = false := by simp
    exact hc.elim (hnot c hd).1 (by simp [(hnot c hd).2])
  unfold readValue
  rw [hskip]
  split
  next heq => exact absurd (List.cons.inj heq).1 (hother _ (by decide))
  next heq => exact absurd (List.cons.inj heq).1 (hother _ (by decide))
  next heq => exact absurd (List.cons.inj heq).1 (hother _ (by decide))
  next heq => exact absurd (List.cons.inj heq).1 (hother _ (by decide))
  next heq => exact absurd (List.cons.inj heq).1 (hother _ (by decide))
  next heq => exact absurd (List.cons.inj heq).1 (hother _ (by decide))
  next =>
    rw [hscan]
    rfl

/-- A string of JSON text that is taken for a text. -/
def QuotedAs (take : List Piece → Option String) (s : String) (cs : List Char) : Prop :=
  ∃ ps body, Written ps body ∧ take ps = some s ∧ cs = '"' :: body ++ ['"']

theorem QuotedAs.isQuoted {s : String} {cs : List Char} (h : QuotedAs take s cs) : IsQuoted cs :=
  have ⟨ps, body, hw, _, hcs⟩ := h
  ⟨ps, body, hw, hcs⟩

theorem IsQuoted.exists_quotedAs (htake : ∀ ps, (take ps).isSome = true) {cs : List Char}
    (h : IsQuoted cs) : ∃ s, QuotedAs take s cs := by
  obtain ⟨ps, body, hw, rfl⟩ := h
  obtain ⟨s, hs⟩ := Option.isSome_iff_exists.mp (htake ps)
  exact ⟨s, ps, body, hw, hs, rfl⟩

theorem Quotes.quotedAs {s : String} {cs : List Char} (h : Quotes s cs) :
    QuotedAs textOf? s cs := by
  obtain ⟨ps, body, hw, hn, rfl⟩ := h
  exact ⟨ps, body, hw, textOf?_eq_of_names hn, rfl⟩

theorem takenAs_quoted {s : String} {cs : List Char} (h : QuotedAs take s cs) :
    TakenAs take (.text s) cs := by
  refine takenAs_of_starts h.isQuoted.starts fun fuel rest _ _ hskip => ?_
  obtain ⟨ps, body, hw, hs, rfl⟩ := h
  have hscan := scanText_append hw rest
  unfold readValue
  rw [hskip]
  simp only [List.cons_append, List.append_assoc, List.nil_append, hscan, hs, bind, Option.bind]
  rfl

/-- A value among others is taken with the blanks before it. -/
theorem TakenAs.readValue_eq {j : Json} {v a : List Char} (h : TakenAs take j v) (ha : IsBlank a)
    (hfuel : 2 * v.length ≤ fuel) (hrest : Stops rest) :
    readValue take fuel (a ++ (v ++ rest)) = some (j, rest) := by
  rw [readValue_append ha]
  exact h fuel rest hfuel hrest

/-- A value as it stands among others. -/
def ItemTaken (take : List Piece → Option String) (j : Json) (v : List Char) : Prop :=
  Starts v ∧ TakenAs take j v

theorem items_append {js : List Json} {items : List (List Char)} {body : List Char}
    (h : Separated items body) (hne : items ≠ [])
    (hitems : List.Forall₂ (ItemTaken take) js items) (hfuel : 2 * body.length + 1 ≤ fuel)
    (rest : List Char) : readValue.items take fuel (body ++ ']' :: rest) = some (js, rest) := by
  obtain ⟨fuel, rfl⟩ : ∃ more, fuel = more + 1 := ⟨fuel - 1, by omega⟩
  induction h generalizing fuel js with
  | none => contradiction
  | @last a b v ha hb =>
    obtain _ | ⟨⟨_, hv⟩, hnil⟩ := hitems
    cases hnil
    simp only [List.length_append] at hfuel
    have hj := hv.readValue_eq ha (show 2 * v.length ≤ fuel by omega)
      (stops_of_blank hb (stops_cons (.inr (.inl rfl)) rest))
    simp only [List.append_assoc]
    rw [readValue.items, hj]
    simp only [bind, Option.bind, skipSpace_mark hb (show isSpace ']' = false by decide)]
    rfl
  | @more a b v w vs body ha hb hmore ih =>
    obtain _ | ⟨⟨hstart, hv⟩, hrest⟩ := hitems
    obtain ⟨c, tail, rfl, _⟩ := hstart.exists_cons
    simp only [List.length_append, List.length_cons] at hfuel
    have hsize : 2 * (c :: tail).length ≤ fuel := by
      simp only [List.length_cons]
      omega
    have hj := hv.readValue_eq ha hsize
      (stops_of_blank hb (stops_cons (.inl rfl) (body ++ ']' :: rest)))
    obtain ⟨fuel, rfl⟩ : ∃ more, fuel = more + 1 := ⟨fuel - 1, by omega⟩
    have hjs := ih (List.cons_ne_nil w vs) hrest fuel (by omega)
    simp only [List.append_assoc, List.cons_append] at hj ⊢
    rw [readValue.items, hj]
    simp only [bind, Option.bind, skipSpace_mark hb (show isSpace ',' = false by decide), hjs]
    rfl

/-- A member with a key and a value that are taken. -/
inductive MemberTaken (take : List Piece → Option String) : String × Json → List Char → Prop where
  | mk {name j key a b v} : QuotedAs take name key → IsBlank a → IsBlank b → TakenAs take j v →
      MemberTaken take (name, j) (key ++ (a ++ ':' :: (b ++ v)))

theorem MemberTaken.starts {member : String × Json} {m : List Char}
    (h : MemberTaken take member m) : Starts m := by
  obtain ⟨⟨_, _, _, _, rfl⟩, _, _, _⟩ := h
  exact starts_cons _ (by decide)

/-- A member is taken up to what stands behind its value. -/
theorem members_succ {member : String × Json} {m a after : List Char}
    (h : MemberTaken take member m) (ha : IsBlank a) (hafter : Stops after)
    (hfuel : 2 * m.length ≤ fuel) :
    readValue.members take (fuel + 1) (a ++ (m ++ after)) =
      match skipSpace after with
      | '\x7d' :: rest => some ([member], rest)
      | ',' :: rest => do
        let (ms, rest) ← readValue.members take fuel rest
        return (member :: ms, rest)
      | _ => none := by
  have hskip := h.starts.skipSpace_eq ha after
  obtain ⟨⟨ps, body, hw, hname, rfl⟩, hc, hd, hv⟩ := h
  simp only [List.length_append, List.length_cons, List.length_nil] at hfuel
  have hj := hv.readValue_eq hd (show 2 * _ ≤ fuel by omega) hafter
  rw [readValue.members, hskip]
  simp only [List.append_assoc, List.cons_append, List.nil_append, scanText_append hw, hname, bind,
    Option.bind, skipSpace_mark hc (show isSpace ':' = false by decide), hj]
  rfl

theorem members_append {ms : List (String × Json)} {members : List (List Char)} {body : List Char}
    (h : Separated members body) (hne : members ≠ [])
    (hmembers : List.Forall₂ (MemberTaken take) ms members) (hfuel : 2 * body.length + 1 ≤ fuel)
    (rest : List Char) :
    readValue.members take fuel (body ++ '\x7d' :: rest) = some (ms, rest) := by
  obtain ⟨fuel, rfl⟩ : ∃ more, fuel = more + 1 := ⟨fuel - 1, by omega⟩
  induction h generalizing fuel ms with
  | none => contradiction
  | @last a b m ha hb =>
    obtain _ | ⟨hm, hnil⟩ := hmembers
    cases hnil
    simp only [List.length_append] at hfuel
    have hmember := members_succ hm ha (stops_of_blank hb (stops_cons (.inr (.inr rfl)) rest))
      (show 2 * m.length ≤ fuel by omega)
    rw [skipSpace_mark hb (by decide)] at hmember
    simp only [List.append_assoc]
    exact hmember
  | @more a b m w ws body ha hb hmore ih =>
    obtain _ | ⟨hm, hrest⟩ := hmembers
    obtain ⟨c, tail, hcons, _⟩ := hm.starts.exists_cons
    have hlen : m.length = tail.length + 1 := congrArg List.length hcons
    simp only [List.length_append, List.length_cons] at hfuel
    have hmember := members_succ hm ha
      (stops_of_blank hb (stops_cons (.inl rfl) (body ++ '\x7d' :: rest)))
      (show 2 * m.length ≤ fuel by omega)
    obtain ⟨fuel, rfl⟩ : ∃ more, fuel = more + 1 := ⟨fuel - 1, by omega⟩
    have hms := ih (List.cons_ne_nil w ws) hrest fuel (by omega)
    rw [skipSpace_mark hb (by decide)] at hmember
    simp only [hms, bind, Option.bind] at hmember
    simp only [List.append_assoc, List.cons_append]
    exact hmember

theorem readValue_skipSpace (cs : List Char) :
    readValue take fuel (skipSpace cs) = readValue take fuel cs := by
  unfold readValue
  rw [skipSpace_skipSpace]

theorem items_skipSpace (cs : List Char) :
    readValue.items take fuel (skipSpace cs) = readValue.items take fuel cs := by
  cases fuel with
  | zero => rw [readValue.items, readValue.items]
  | succ => rw [readValue.items, readValue.items, readValue_skipSpace]

theorem members_skipSpace (cs : List Char) :
    readValue.members take fuel (skipSpace cs) = readValue.members take fuel cs := by
  cases fuel with
  | zero => rw [readValue.members, readValue.members]
  | succ => rw [readValue.members, readValue.members, skipSpace_skipSpace]

theorem takenAs_array {js : List Json} {items : List (List Char)} {body : List Char}
    (h : Separated items body) (hitems : List.Forall₂ (ItemTaken take) js items) :
    TakenAs take (.array js) ('[' :: (body ++ [']'])) := by
  refine takenAs_of_starts (starts_cons _ (by decide)) fun fuel rest hfuel _ hskip => ?_
  simp only [List.length_cons, List.length_append, List.length_nil] at hfuel
  unfold readValue
  rw [hskip, enclosed_append]
  cases hitems with
  | nil =>
    simp only [skipSpace_mark h.isBlank (show isSpace ']' = false by decide)]
  | @cons j v js vs hv hvs =>
    have ⟨tail, htail⟩ := h.exists_skipSpace hv.1 (']' :: rest)
    have hjs := items_append h (List.cons_ne_nil v vs) (.cons hv hvs)
      (show 2 * body.length + 1 ≤ fuel by omega) rest
    rw [← items_skipSpace, htail] at hjs
    obtain ⟨c, more, rfl, _, _, hc, _⟩ := hv.1.exists_cons
    simp only [htail]
    split
    next heq => exact absurd (List.cons.inj heq).1 hc
    next =>
      rw [hjs]
      rfl

theorem takenAs_object {ms : List (String × Json)} {members : List (List Char)} {body : List Char}
    (h : Separated members body) (hmembers : List.Forall₂ (MemberTaken take) ms members) :
    TakenAs take (.object ms) ('\x7b' :: (body ++ ['\x7d'])) := by
  refine takenAs_of_starts (starts_cons _ (by decide)) fun fuel rest hfuel _ hskip => ?_
  simp only [List.length_cons, List.length_append, List.length_nil] at hfuel
  unfold readValue
  rw [hskip, enclosed_append]
  cases hmembers with
  | nil =>
    simp only [skipSpace_mark h.isBlank (show isSpace '\x7d' = false by decide)]
  | @cons member m ms texts hm hrest =>
    have ⟨tail, htail⟩ := h.exists_skipSpace hm.starts ('\x7d' :: rest)
    have hms := members_append h (List.cons_ne_nil m texts) (.cons hm hrest)
      (show 2 * body.length + 1 ≤ fuel by omega) rest
    rw [← members_skipSpace, htail] at hms
    obtain ⟨c, more, rfl, _, _, _, hc⟩ := hm.starts.exists_cons
    simp only [htail]
    split
    next heq => exact absurd (List.cons.inj heq).1 hc
    next =>
      rw [hms]
      rfl

theorem exists_forall₂ {α β : Type} {related : α → β → Prop} {bs : List β}
    (h : ∀ b ∈ bs, ∃ a, related a b) : ∃ as, List.Forall₂ related as bs := by
  induction bs with
  | nil => exact ⟨[], .nil⟩
  | cons b bs ih =>
    obtain ⟨hb, hbs⟩ := List.forall_mem_cons.mp h
    obtain ⟨a, ha⟩ := hb
    obtain ⟨as, has⟩ := ih hbs
    exact ⟨a :: as, .cons ha has⟩

/-- Every value that the grammar allows is taken for some value. -/
theorem WellFormed.exists_taken (htake : ∀ ps, (take ps).isSome = true) {kind : Nonterminal}
    {cs : List Char} (h : WellFormed kind cs) :
    match kind with
    | .value => ∃ j, TakenAs take j cs
    | .member => ∃ member, MemberTaken take member cs := by
  induction h with
  | null => exact ⟨_, takenAs_null⟩
  | yes => exact ⟨_, takenAs_boolean true⟩
  | no => exact ⟨_, takenAs_boolean false⟩
  | numeral h => exact ⟨_, takenAs_numeral h⟩
  | text h =>
    obtain ⟨_, hs⟩ := h.exists_quotedAs htake
    exact ⟨_, takenAs_quoted hs⟩
  | array hs hitems ih =>
    obtain ⟨js, hjs⟩ : ∃ js, List.Forall₂ (ItemTaken take) js _ := exists_forall₂ fun v hv =>
      (ih v hv).imp fun _ hj => ⟨(hitems v hv).starts, hj⟩
    exact ⟨_, takenAs_array hs hjs⟩
  | object hs _ ih =>
    obtain ⟨ms, hms⟩ := exists_forall₂ ih
    exact ⟨_, takenAs_object hs hms⟩
  | member hkey ha hb _ ih =>
    obtain ⟨_, hname⟩ := hkey.exists_quotedAs htake
    obtain ⟨_, hj⟩ := ih
    exact ⟨_, .mk hname ha hb hj⟩

end

/-- What is passed over is exactly the value. -/
theorem skipValue_append {a v rest : List Char} (h : WellFormed .value v) (ha : IsBlank a)
    (hrest : Stops rest) : skipValue (a ++ (v ++ rest)) = some rest := by
  obtain ⟨j, htaken⟩ := @WellFormed.exists_taken (fun _ => some "") (fun _ => rfl) _ _ h
  have hfuel : 2 * v.length ≤ 2 * (a ++ (v ++ rest)).length + 2 := by
    simp only [List.length_append]
    omega
  rw [skipValue, htaken.readValue_eq ha hfuel hrest]
  rfl

end Sidecar.Json
