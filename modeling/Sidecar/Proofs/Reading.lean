import Mathlib
import Sidecar.Proofs.Digits
import Sidecar.Proofs.Grammar
import Sidecar.Record.Reader

/-! Reading a record from any of its spellings. A spelling chooses the order of members, blanks,
escapes, members beside the known ones and, for each record in it, members or a plain list. -/

namespace Sidecar

open Json

/-- The values that members give under a name. -/
def valuesOf (name : String) (ms : List (String × List Char)) : List (List Char) :=
  (ms.filter fun m => m.1 = name).map Prod.snd

/-- A member with its key, by what the key says, and the text of its value. -/
inductive SpellsMember : String × List Char → List Char → Prop where
  | mk {name key a b v} : Quotes name key → IsBlank a → IsBlank b →
      SpellsMember (name, v) (key ++ (a ++ ':' :: (b ++ v)))

/-- A name is given once, with a text that will do, or not at all, if it may be left out. -/
def IsGiven (name : String) (spelled : List Char → Prop) (absent : Prop)
    (ms : List (String × List Char)) : Prop :=
  (∃ cs, valuesOf name ms = [cs] ∧ spelled cs) ∨ valuesOf name ms = [] ∧ absent

/-- The value that a field has when it is left out. -/
def Shape.IsAbsent : (shape : Shape) → shape.Value → Prop
  | .optional _, v => v = none
  | _, _ => False

mutual

/-- The texts of a value. -/
def Shape.Spells : (shape : Shape) → shape.Value → List Char → Prop
  | .text, s, cs => Quotes s cs
  | .unsigned32, n, cs => cs = integerText n.toNat
  | .signed32, n, cs => cs = integerText n.toInt
  | .domain, d, cs => Quotes d.name cs ∨ ∃ member body,
      SpellsMember (d.name, "null".toList) member ∧ Separated [member] body ∧
      cs = '\x7b' :: (body ++ ['\x7d'])
  | .optional _, none, cs => cs = "null".toList
  | .optional inner, some v, cs => inner.Spells v cs
  | .list item, vs, cs => ∃ items body,
      List.Forall₂ item.Spells vs items ∧ Separated items body ∧ cs = '[' :: (body ++ [']'])
  | .record _ fields, vs, cs =>
      (∃ ms members body, List.Forall₂ SpellsMember ms members ∧ Separated members body ∧
        fields.GivenBy vs ms ∧ (∀ m ∈ ms, m.1 ∉ fields.names → WellFormed .value m.2) ∧
        cs = '\x7b' :: (body ++ ['\x7d'])) ∨
      ∃ items body, fields.InOrder vs items ∧ Separated items body ∧ cs = '[' :: (body ++ [']'])

def Fields.GivenBy : (fields : Fields) → fields.Values → List (String × List Char) → Prop
  | .nil, _, _ => True
  | .cons name shape rest, (v, vs), ms =>
      IsGiven name (shape.Spells v) (shape.IsAbsent v) ms ∧ rest.GivenBy vs ms

/-- The fields one after another, without their names. -/
def Fields.InOrder : (fields : Fields) → fields.Values → List (List Char) → Prop
  | .nil, _, items => items = []
  | .cons _ shape rest, (v, vs), items =>
      ∃ cs more, items = cs :: more ∧ shape.Spells v cs ∧ rest.InOrder vs more

end

/-- A text that spells a record, with blanks around it. -/
def Record.SpelledBy (r : Record) (s : String) : Prop :=
  ∃ before cs after, IsBlank before ∧ IsBlank after ∧ shape.Spells r.toValues cs ∧
    s.toList = before ++ (cs ++ after)

namespace Record

/-- A reader takes a text, with the blanks before it, for a value. -/
structure Reads {α : Type} (read : List Char → Except ReadError (α × List Char)) (v : α)
    (cs : List Char) : Prop where
  starts : Starts cs
  read_eq : ∀ before rest, IsBlank before → Stops rest →
    read (before ++ (cs ++ rest)) = .ok (v, rest)

theorem reads_readText {s : String} {cs : List Char} (h : Quotes s cs) : Reads readText s cs := by
  refine ⟨h.isQuoted.starts, fun before rest hbefore _ => ?_⟩
  have hskip := h.isQuoted.starts.skipSpace_eq hbefore rest
  obtain ⟨ps, body, hw, hn, rfl⟩ := h
  rw [readText, hskip]
  simp only [List.cons_append, List.append_assoc, List.nil_append, scanText_append hw,
    textOf?_eq_of_names hn, orNotJson, bind, Except.bind]

/-! Integers. -/

theorem isWhole_toDigits (n : Nat) : IsWhole (Nat.toDigits 10 n) := by
  refine ⟨⟨Nat.toDigits_ne_nil, fun d hd => ?_⟩, fun hhead => ?_⟩
  · exact Nat.isDigit_of_mem_toDigits (by decide) (by decide) hd
  · by_cases hn : n = 0
    · rw [hn, Nat.toDigits_zero]
    · exact absurd hhead (Digits.head?_toDigits hn)

theorem natOfDigits_toDigits (n : Nat) : natOfDigits (Nat.toDigits 10 n) = n := by
  rw [natOfDigits, ← Nat.ofDigitChars_eq_foldl, Nat.ofDigitChars_ten_toDigits]

/-- The numeral of an integer. -/
def numeralOf (n : Int) : Numeral :=
  ⟨decide (n < 0), Nat.toDigits 10 n.natAbs, none, none⟩

theorem integerText_eq (n : Int) : integerText n =
    (if n < 0 then ['-'] else []) ++ Nat.toDigits 10 n.natAbs := by
  rw [integerText, show toString n = n.repr from rfl, Int.repr_eq_if, Nat.repr_eq_ofList_toDigits,
    Nat.repr_eq_ofList_toDigits]
  by_cases hn : n < 0
  · have hnat : (-n).toNat = n.natAbs := by omega
    rw [if_neg (Int.not_le.mpr hn), if_pos hn, String.toList_append, hnat]
    exact congrArg ('-' :: ·) String.toList_ofList
  · have hnat : n.toNat = n.natAbs := by omega
    rw [if_pos (Int.not_lt.mp hn), if_neg hn, String.toList_ofList, hnat]
    rfl

theorem written_integerText (n : Int) : (numeralOf n).Written (integerText n) := by
  have hds := isWhole_toDigits n.natAbs
  rw [integerText_eq, numeralOf]
  by_cases hn : n < 0
  · have h := Numeral.Written.negative hds .none .none
    rw [List.append_nil, List.append_nil] at h
    rwa [if_pos hn, decide_eq_true hn]
  · have h := Numeral.Written.unsigned hds .none .none
    rw [List.append_nil, List.append_nil] at h
    rwa [if_neg hn, decide_eq_false hn]

theorem scalar?_numeralOf {n : Int} (hleast : -2 ^ 63 ≤ n) (hgreatest : n < 2 ^ 64) :
    (numeralOf n).scalar? = some (if n < 0 then .negative n else .unsigned n.toNat) := by
  have hinteger : (numeralOf n).isInteger = true := rfl
  have hsize : natOfDigits (numeralOf n).whole = n.natAbs := natOfDigits_toDigits n.natAbs
  rw [Numeral.scalar?, hinteger, if_pos rfl, hsize]
  by_cases hn : n < 0
  · have hnegative : (numeralOf n).negative = true := decide_eq_true hn
    have hback : -(n.natAbs : Int) = n := by omega
    simp only [hnegative, hn, if_true, hback]
    rw [if_pos (by omega)]
  · have hnegative : (numeralOf n).negative = false := decide_eq_false hn
    have hback : n.natAbs = n.toNat := by omega
    simp only [hnegative, hn, if_false, hback, Bool.false_eq_true]
    rw [if_pos (by omega)]

theorem reads_readInteger (expected : String) {least greatest n : Int} (hleast : -2 ^ 63 ≤ least)
    (hgreatest : greatest < 2 ^ 64) (hn : least ≤ n ∧ n ≤ greatest) :
    Reads (readInteger expected least greatest) n (integerText n) := by
  have hw := written_integerText n
  refine ⟨hw.starts, fun before rest hbefore hrest => ?_⟩
  have ⟨c, tail, hcs, hc⟩ := hw.exists_cons
  have hstarts : startsNumeral (integerText n ++ rest) = true := by
    rw [hcs, List.cons_append, startsNumeral]
    simpa using hc
  have hscalar := scalar?_numeralOf (n := n) (by omega) (by omega)
  rw [readInteger, hw.starts.skipSpace_eq hbefore]
  simp only [hstarts, if_true, scanNumeral_append hw hrest, hscalar, orNotJson, bind, Except.bind]
  by_cases hneg : n < 0
  · simp only [hneg, if_true, hn, and_self]
  · have hnat : (n.toNat : Int) = n := Int.toNat_of_nonneg (Int.not_lt.mp hneg)
    simp only [hneg, if_false, hnat, hn, and_self, if_true]

/-! Domains, lists and members. -/

theorem readColon_append {a : List Char} (h : IsBlank a) (rest : List Char) :
    readColon (a ++ ':' :: rest) = .ok rest := by
  rw [readColon, skipSpace_mark h (by decide)]
  rfl

theorem nextKey_append {name : String} {key : List Char} (h : Quotes name key) {a : List Char}
    (ha : IsBlank a) (rest : List Char) :
    nextKey true (a ++ (key ++ rest)) = .ok (some name, rest) ∧
      ∀ b, IsBlank b →
        nextKey false (b ++ ',' :: (a ++ (key ++ rest))) = .ok (some name, rest) := by
  have hskip := h.isQuoted.starts.skipSpace_eq ha rest
  obtain ⟨ps, body, hw, hn, rfl⟩ := h
  have htext : '"' :: body ++ ['"'] ++ rest = '"' :: (body ++ '"' :: rest) := by simp
  have hkey : nextKey.key (body ++ '"' :: rest) = .ok (some name, rest) := by
    simp only [nextKey.key, scanText_append hw, textOf?_eq_of_names hn, orNotJson, bind,
      Except.bind]
  rw [htext] at hskip ⊢
  refine ⟨?_, fun b hb => ?_⟩
  · rw [nextKey, hskip]
    exact hkey
  · rw [nextKey, skipSpace_mark hb (by decide)]
    simp only [hskip]
    exact hkey

theorem nextKey_none {first : Bool} {b : List Char} (hb : IsBlank b) (rest : List Char) :
    nextKey first (b ++ '\x7d' :: rest) = .ok (none, rest) := by
  rw [nextKey, skipSpace_mark hb (by decide)]
  rfl

theorem domainNamed_name (d : Domain) : domainNamed d.name = .ok d := by
  rw [domainNamed, Domain.ofName?_eq_some_iff.mpr rfl]

theorem reads_readDomain {d : Domain} {cs : List Char} (h : Shape.domain.Spells d cs) :
    Reads readDomain d cs := by
  cases h with
  | inl h =>
    refine ⟨h.isQuoted.starts, fun before rest hbefore _ => ?_⟩
    have hskip := h.isQuoted.starts.skipSpace_eq hbefore rest
    obtain ⟨ps, body, hw, hn, rfl⟩ := h
    rw [readDomain, hskip]
    simp only [List.cons_append, List.append_assoc, List.nil_append, scanText_append hw,
      textOf?_eq_of_names hn, orNotJson, domainNamed_name, bind, Except.bind]
  | inr h =>
    obtain ⟨member, body, hm, hs, rfl⟩ := h
    refine ⟨starts_cons _ (by decide), fun before rest hbefore _ => ?_⟩
    cases hs with
    | @last a b _ ha hb =>
      obtain ⟨⟨ps, key, hw, hn, rfl⟩, hc, hd⟩ := hm
      have hbrace : isSpace '\x7b' = false := by decide
      have hend : isSpace '\x7d' = false := by decide
      have hquote : isSpace '"' = false := by decide
      have hn' : isSpace 'n' = false := by decide
      have hnull : "null".toList = ['n', 'u', 'l', 'l'] := by decide
      simp only [readDomain, hnull, List.cons_append, List.append_assoc, List.nil_append,
        skipSpace_mark hbefore hbrace, skipSpace_mark ha hquote, scanText_append hw,
        textOf?_eq_of_names hn, orNotJson, domainNamed_name, readColon_append hc,
        skipSpace_mark hd hn', skipSpace_mark hb hend, bind, Except.bind]

theorem nextItem_append {v a : List Char} (hv : Starts v) (ha : IsBlank a) (rest : List Char) :
    nextItem true (a ++ (v ++ rest)) = .ok (true, v ++ rest) ∧
      ∀ b, IsBlank b → nextItem false (b ++ ',' :: (a ++ (v ++ rest))) = .ok (true, v ++ rest) := by
  have hskip := hv.skipSpace_eq ha rest
  obtain ⟨c, tail, rfl, _, hcomma, hbracket, _⟩ := hv.exists_cons
  refine ⟨?_, fun b hb => ?_⟩
  · unfold nextItem
    rw [hskip]
    split
    next heq => exact absurd (List.cons.inj heq).1 hbracket
    next heq => exact absurd (List.cons.inj heq).1 hcomma
    next => contradiction
    next => rfl
  · unfold nextItem
    rw [skipSpace_mark hb (by decide)]
    simp only [hskip, Bool.false_eq_true, if_false]
    split
    next => contradiction
    next heq => exact absurd (List.cons.inj heq).1 hbracket
    next => rfl

theorem nextItem_end {first : Bool} {b : List Char} (hb : IsBlank b) (rest : List Char) :
    nextItem first (b ++ ']' :: rest) = .ok (false, rest) := by
  rw [nextItem, skipSpace_mark hb (by decide)]
  rfl

section

variable {α : Type} {item : List Char → Except ReadError (α × List Char)} {v : α} {vs : List α}
  {cs v' after rest : List Char} {fuel : Nat} {first : Bool}

theorem readItems_succ (h : nextItem first cs = .ok (true, v' ++ after)) (hv : Reads item v v')
    (hafter : Stops after) (hrest : readItems item fuel false after = .ok (vs, rest)) :
    readItems item (fuel + 1) first cs = .ok (v :: vs, rest) := by
  have hitem := hv.read_eq [] after isBlank_nil hafter
  rw [List.nil_append] at hitem
  simp only [readItems, h, hitem, hrest, bind, Except.bind, if_true]

theorem readItems_end {b : List Char} (hb : IsBlank b) (first : Bool) (fuel : Nat)
    (rest : List Char) : readItems item (fuel + 1) first (b ++ ']' :: rest) = .ok ([], rest) := by
  simp only [readItems, nextItem_end hb, bind, Except.bind, Bool.false_eq_true, if_false]

/-- The items of a list, from its start and from the comma before the first. -/
theorem readItems_append {items : List (List Char)} {body : List Char}
    (hitems : List.Forall₂ (Reads item) vs items) (h : Separated items body)
    (hfuel : items.length < fuel) :
    readItems item fuel true (body ++ ']' :: rest) = .ok (vs, rest) ∧
      (items ≠ [] → ∀ b, IsBlank b →
        readItems item fuel false (b ++ ',' :: (body ++ ']' :: rest)) = .ok (vs, rest)) := by
  obtain ⟨fuel, rfl⟩ : ∃ more, fuel = more + 1 := ⟨fuel - 1, by omega⟩
  induction h generalizing vs fuel with
  | none ha =>
    cases hitems
    exact ⟨readItems_end ha true fuel rest, fun hne => absurd rfl hne⟩
  | @last a b _ ha hb =>
    obtain _ | ⟨hv, hnil⟩ := hitems
    cases hnil
    have hafter := stops_of_blank hb (stops_cons (.inr (.inl rfl)) rest)
    have ⟨hfirst, hmore⟩ := nextItem_append hv.starts ha (b ++ ']' :: rest)
    obtain ⟨fuel, rfl⟩ : ∃ more, fuel = more + 1 := ⟨fuel - 1, by simp at hfuel; omega⟩
    have hend : readItems item (fuel + 1) false (b ++ ']' :: rest) = .ok ([], rest) :=
      readItems_end hb false fuel rest
    simp only [List.append_assoc]
    exact ⟨readItems_succ hfirst hv hafter hend,
      fun _ c hc => readItems_succ (hmore c hc) hv hafter hend⟩
  | @more a b _ _ _ body ha hb _ ih =>
    obtain _ | ⟨hv, hrest⟩ := hitems
    have hafter := stops_of_blank hb (stops_cons (.inl rfl) (body ++ ']' :: rest))
    have ⟨hfirst, hmore⟩ := nextItem_append hv.starts ha (b ++ ',' :: (body ++ ']' :: rest))
    obtain ⟨fuel, rfl⟩ : ∃ more, fuel = more + 1 := ⟨fuel - 1, by simp at hfuel; omega⟩
    have htail := (ih hrest fuel (by simp at hfuel ⊢; omega)).2 (List.cons_ne_nil _ _) b hb
    simp only [List.append_assoc, List.cons_append]
    exact ⟨readItems_succ hfirst hv hafter htail,
      fun _ c hc => readItems_succ (hmore c hc) hv hafter htail⟩

end

end Record

/-! Shapes whose values can be told apart by what is read. -/

def Shape.isOptional : Shape → Bool
  | .optional _ => true
  | _ => false

mutual

/-- No option stands directly in an option, and no two fields of a record share a name. -/
def Shape.IsSound : Shape → Prop
  | .optional inner => inner.isOptional = false ∧ inner.IsSound
  | .list item => item.IsSound
  | .record _ fields => fields.names.Nodup ∧ fields.IsSound
  | _ => True

def Fields.IsSound : Fields → Prop
  | .nil => True
  | .cons _ shape rest => shape.IsSound ∧ rest.IsSound

end

theorem Record.isSound_shape : Record.shape.IsSound := by
  simp only [shape, fields, Artifact.shape, Artifact.fields, Coverage.shape, Coverage.fields,
    Source.shape, Source.fields, Approval.shape, Approval.fields, Shape.IsSound, Fields.IsSound,
    Shape.isOptional, Fields.names, and_true, true_and]
  decide

/-- Only an option may be null. -/
theorem Shape.Spells.head_ne {shape : Shape} {v : shape.Value} {cs : List Char}
    (h : shape.Spells v cs) (hshape : shape.isOptional = false) :
    ∃ c tail, cs = c :: tail ∧ c ≠ 'n' := by
  have hinteger (n : Int) : ∃ c tail, integerText n = c :: tail ∧ c ≠ 'n' := by
    obtain ⟨c, tail, heq, hc⟩ := (Record.written_integerText n).exists_cons
    refine ⟨c, tail, heq, ?_⟩
    rintro rfl
    exact absurd hc (by decide)
  cases shape with
  | text =>
    obtain ⟨_, _, _, _, rfl⟩ := h
    exact ⟨_, _, rfl, by decide⟩
  | unsigned32 =>
    rw [show cs = integerText v.toNat from h]
    exact hinteger v.toNat
  | signed32 =>
    rw [show cs = integerText v.toInt from h]
    exact hinteger v.toInt
  | domain =>
    obtain ⟨_, _, _, _, rfl⟩ | ⟨_, _, _, _, rfl⟩ := h
    · exact ⟨_, _, rfl, by decide⟩
    · exact ⟨_, _, rfl, by decide⟩
  | optional => contradiction
  | list =>
    obtain ⟨_, _, _, _, rfl⟩ := h
    exact ⟨_, _, rfl, by decide⟩
  | record =>
    obtain ⟨_, _, _, _, _, _, _, rfl⟩ | ⟨_, _, _, _, rfl⟩ := h
    · exact ⟨_, _, rfl, by decide⟩
    · exact ⟨_, _, rfl, by decide⟩

namespace Fields

open Record

/-- Every text of a field's value is read. -/
def Readable : Fields → Prop
  | .nil => True
  | .cons _ shape rest =>
    (∀ v cs, shape.Spells v cs → Reads (readShape shape) v cs) ∧ rest.Readable

/-- What is left to be read: a field has been filed and is not given again, or is still to come. -/
def Pending : (fields : Fields) → fields.Values → fields.Partial →
    List (String × List Char) → Prop
  | .nil, _, _, _ => True
  | .cons name shape rest, (v, vs), (given, filed), ms =>
    (given = some v ∧ valuesOf name ms = [] ∨
      given = none ∧ IsGiven name (shape.Spells v) (shape.IsAbsent v) ms) ∧ rest.Pending vs filed ms

theorem valuesOf_cons_self (name : String) (cs : List Char) (ms : List (String × List Char)) :
    valuesOf name ((name, cs) :: ms) = cs :: valuesOf name ms := by
  simp [valuesOf]

theorem valuesOf_cons_of_ne {name key : String} (h : key ≠ name) (cs : List Char)
    (ms : List (String × List Char)) : valuesOf name ((key, cs) :: ms) = valuesOf name ms := by
  simp [valuesOf, h]

theorem pending_nothing : ∀ {fields : Fields} {vs : fields.Values} {ms : List (String × List Char)},
    fields.GivenBy vs ms → fields.Pending vs fields.nothing ms
  | .nil, _, _, _ => trivial
  | .cons .., _, _, ⟨h, hrest⟩ => ⟨.inr ⟨rfl, h⟩, pending_nothing hrest⟩

/-- A member with another key changes nothing. -/
theorem Pending.other {key : String} {cs : List Char} {ms : List (String × List Char)} :
    ∀ {fields : Fields} {vs : fields.Values} {filed : fields.Partial},
      fields.Pending vs filed ((key, cs) :: ms) → key ∉ fields.names → fields.Pending vs filed ms
  | .nil, _, _, _, _ => trivial
  | .cons name shape rest, _, _, ⟨h, hrest⟩, hkey => by
    have ⟨hne, hnot⟩ := not_or.mp (mt List.mem_cons.mpr hkey)
    rw [IsGiven, valuesOf_cons_of_ne hne] at h
    exact ⟨h, hrest.other hnot⟩

theorem enter_eq_none {key : String} {cs : List Char} :
    ∀ {fields : Fields} {filed : fields.Partial}, key ∉ fields.names →
      enter fields key filed cs = none
  | .nil, _, _ => by rw [enter]
  | .cons name shape rest, (given, filed), hkey => by
    have ⟨hne, hnot⟩ := not_or.mp (mt List.mem_cons.mpr hkey)
    unfold enter
    rw [if_neg hne, enter_eq_none hnot, Option.map_none]

/-- A member with the name of a field is filed there. -/
theorem Pending.enter {key : String} {a b v rest : List Char} {ms : List (String × List Char)}
    (ha : IsBlank a) (hb : IsBlank b) (hrest : Stops rest) :
    ∀ {fields : Fields} {vs : fields.Values} {filed : fields.Partial},
      fields.names.Nodup → fields.Readable → fields.Pending vs filed ((key, v) :: ms) →
        key ∈ fields.names →
          ∃ after, Record.enter fields key filed (a ++ ':' :: (b ++ (v ++ rest))) =
            some (.ok (after, rest)) ∧ fields.Pending vs after ms
  | .nil, _, _, _, _, _, hkey => absurd hkey List.not_mem_nil
  | .cons name shape fields, (value, vs), (given, filed), hnodup, ⟨hread, hreads⟩, ⟨h, hpending⟩,
      hkey => by
    have ⟨hname, hnodup⟩ := List.nodup_cons.mp hnodup
    by_cases heq : key = name
    · subst heq
      rw [IsGiven, valuesOf_cons_self] at h
      obtain ⟨_, hnil⟩ | ⟨rfl, ⟨cs, hcs, hspells⟩ | ⟨hnil, _⟩⟩ := h
      · contradiction
      · obtain ⟨rfl, hnone⟩ := List.cons.inj hcs
        refine ⟨(some value, filed), ?_, .inl ⟨rfl, hnone⟩, hpending.other hname⟩
        have hvalue := (hread value v hspells).read_eq b rest hb hrest
        rw [Record.enter, if_pos rfl]
        simp only [readColon_append ha, hvalue, bind, Except.bind]
      · contradiction
    · have hin := (List.mem_cons.mp hkey).resolve_left heq
      rw [IsGiven, valuesOf_cons_of_ne heq] at h
      have ⟨after, hafter, hleft⟩ := hpending.enter ha hb hrest hnodup hreads hin
      refine ⟨(given, after), ?_, h, hleft⟩
      unfold Record.enter
      rw [if_neg heq, hafter]
      rfl

/-- With no members left, all values are there. -/
theorem Pending.complete : ∀ {fields : Fields} {vs : fields.Values} {filed : fields.Partial},
    fields.Pending vs filed [] → Record.complete fields filed = .ok vs
  | .nil, _, _, _ => by rw [Record.complete]
  | .cons name shape rest, (v, vs), (given, filed), ⟨h, hrest⟩ => by
    unfold Record.complete
    rw [hrest.complete]
    obtain ⟨rfl, _⟩ | ⟨rfl, ⟨cs, hcs, _⟩ | ⟨_, habsent⟩⟩ := h
    · rfl
    · contradiction
    · cases shape with
      | optional inner =>
        rw [show v = none from habsent]
        rfl
      | _ => exact habsent.elim

end Fields

namespace Record

section

variable {fields : Fields} {vs : fields.Values} {filed : fields.Partial}

/-- One member is read, filed if its key is known and passed over if it is not. -/
theorem readMembers_succ {name : String} {a b v after : List Char}
    {ms : List (String × List Char)} (hnodup : fields.names.Nodup) (hreads : fields.Readable)
    (hpending : fields.Pending vs filed ((name, v) :: ms))
    (hother : name ∉ fields.names → WellFormed .value v) (ha : IsBlank a) (hb : IsBlank b)
    (hafter : Stops after) :
    ∃ filed', fields.Pending vs filed' ms ∧ ∀ fuel first cs,
      nextKey first cs = .ok (some name, a ++ ':' :: (b ++ (v ++ after))) →
        readMembers (enter fields) (fuel + 1) first filed cs =
          readMembers (enter fields) fuel false filed' after := by
  by_cases hname : name ∈ fields.names
  · have ⟨filed', henter, hleft⟩ := hpending.enter ha hb hafter hnodup hreads hname
    refine ⟨filed', hleft, fun fuel first cs hkey => ?_⟩
    simp only [readMembers, hkey, henter, bind, Except.bind]
  · refine ⟨filed, hpending.other hname, fun fuel first cs hkey => ?_⟩
    simp only [readMembers, hkey, Fields.enter_eq_none hname, readColon_append ha,
      skipValue_append (hother hname) hb hafter, orNotJson, bind, Except.bind]

theorem readMembers_end {b : List Char} (hb : IsBlank b) (first : Bool) (fuel : Nat)
    (rest : List Char) :
    readMembers (enter fields) (fuel + 1) first filed (b ++ '\x7d' :: rest) =
      .ok (filed, rest) := by
  simp only [readMembers, nextKey_none hb, bind, Except.bind]

/-- The members of a record, from their start and from the comma before the first. -/
theorem readMembers_append {fuel : Nat} {ms : List (String × List Char)}
    {members : List (List Char)} {body : List Char} (hnodup : fields.names.Nodup)
    (hreads : fields.Readable) (hms : List.Forall₂ SpellsMember ms members)
    (h : Separated members body) (hpending : fields.Pending vs filed ms)
    (hother : ∀ m ∈ ms, m.1 ∉ fields.names → WellFormed .value m.2)
    (hfuel : members.length < fuel) (rest : List Char) :
    ∃ filed', fields.Pending vs filed' [] ∧
      readMembers (enter fields) fuel true filed (body ++ '\x7d' :: rest) = .ok (filed', rest) ∧
      (members ≠ [] → ∀ b, IsBlank b →
        readMembers (enter fields) fuel false filed (b ++ ',' :: (body ++ '\x7d' :: rest)) =
          .ok (filed', rest)) := by
  obtain ⟨fuel, rfl⟩ : ∃ more, fuel = more + 1 := ⟨fuel - 1, by omega⟩
  induction h generalizing ms filed fuel with
  | none ha =>
    cases hms
    exact ⟨filed, hpending, readMembers_end ha true fuel rest, fun hne => absurd rfl hne⟩
  | @last a b _ ha hb =>
    obtain _ | ⟨hm, hnil⟩ := hms
    cases hnil
    obtain @⟨name, key, c, d, v, hkey, hc, hd⟩ := hm
    have hafter := stops_of_blank hb (stops_cons (.inr (.inr rfl)) rest)
    have ⟨filed', hleft, hread⟩ := readMembers_succ hnodup hreads hpending
      (hother _ List.mem_cons_self) hc hd hafter
    obtain ⟨fuel, rfl⟩ : ∃ more, fuel = more + 1 := ⟨fuel - 1, by simp at hfuel; omega⟩
    have ⟨hfirst, hmore⟩ := nextKey_append hkey ha (c ++ ':' :: (d ++ (v ++ (b ++ '\x7d' :: rest))))
    simp only [List.append_assoc, List.cons_append]
    refine ⟨filed', hleft, ?_, fun _ e he => ?_⟩
    · rw [hread _ _ _ hfirst, readMembers_end hb]
    · rw [hread _ _ _ (hmore e he), readMembers_end hb]
  | @more a b _ _ _ body ha hb _ ih =>
    obtain _ | ⟨hm, hrest⟩ := hms
    obtain @⟨name, key, c, d, v, hkey, hc, hd⟩ := hm
    have hafter := stops_of_blank hb (stops_cons (.inl rfl) (body ++ '\x7d' :: rest))
    have ⟨filed', hleft, hread⟩ := readMembers_succ hnodup hreads hpending
      (hother _ List.mem_cons_self) hc hd hafter
    obtain ⟨fuel, rfl⟩ : ∃ more, fuel = more + 1 := ⟨fuel - 1, by simp at hfuel; omega⟩
    have ⟨last, hlast, _, htail⟩ := ih hrest hleft
      (fun m hm => hother m (List.mem_cons_of_mem _ hm)) fuel (by simp at hfuel ⊢; omega)
    have ⟨hfirst, hmore⟩ := nextKey_append hkey ha
      (c ++ ':' :: (d ++ (v ++ (b ++ ',' :: (body ++ '\x7d' :: rest)))))
    have hend := htail (List.cons_ne_nil _ _) b hb
    simp only [List.append_assoc, List.cons_append]
    refine ⟨last, hlast, ?_, fun _ e he => ?_⟩
    · rw [hread _ _ _ hfirst, hend]
    · rw [hread _ _ _ (hmore e he), hend]

theorem readInOrder_cons {expected name : String} {shape : Shape} {v : shape.Value} {place : Nat}
    {cs v' after after' : List Char} (hv : Reads (readShape shape) v v')
    (h : nextItem (place == 0) cs = .ok (true, v' ++ after)) (hafter : Stops after)
    (hrest : readInOrder expected (place + 1) fields after = .ok (vs, after')) :
    readInOrder expected place (.cons name shape fields) cs = .ok ((v, vs), after') := by
  have hitem := hv.read_eq [] after isBlank_nil hafter
  rw [List.nil_append] at hitem
  simp only [readInOrder, h, hitem, hrest, bind, Except.bind, if_true]

/-- The fields of a record in their order, from the start and from the comma before the first. -/
theorem readInOrder_append (expected : String) {items : List (List Char)} {body : List Char}
    (hreads : fields.Readable) (hitems : fields.InOrder vs items) (h : Separated items body)
    (rest : List Char) :
    ∃ b, IsBlank b ∧
      readInOrder expected 0 fields (body ++ ']' :: rest) = .ok (vs, b ++ ']' :: rest) ∧
      (items ≠ [] → ∀ place a, IsBlank a →
        readInOrder expected (place + 1) fields (a ++ ',' :: (body ++ ']' :: rest)) =
          .ok (vs, b ++ ']' :: rest)) := by
  induction h generalizing fields with
  | @none a ha =>
    cases fields with
    | nil => exact ⟨a, ha, by rw [readInOrder], fun hne => absurd rfl hne⟩
    | cons =>
      obtain ⟨_, _, heq, _⟩ := hitems
      contradiction
  | @last a b v ha hb =>
    cases fields with
    | nil => exact absurd hitems (List.cons_ne_nil _ _)
    | cons name shape fields =>
      obtain ⟨_, _, heq, hv, hrest⟩ := hitems
      obtain ⟨rfl, rfl⟩ := List.cons.inj heq
      cases fields with
      | cons =>
        obtain ⟨_, _, heq, _⟩ := hrest
        contradiction
      | nil =>
        have hv := hreads.1 _ _ hv
        have hafter := stops_of_blank hb (stops_cons (.inr (.inl rfl)) rest)
        have ⟨hfirst, hmore⟩ := nextItem_append hv.starts ha (b ++ ']' :: rest)
        have hend (place : Nat) :
            readInOrder expected place .nil (b ++ ']' :: rest) = .ok ((), b ++ ']' :: rest) := by
          rw [readInOrder]
        simp only [List.append_assoc]
        exact ⟨b, hb, readInOrder_cons hv hfirst hafter (hend 1),
          fun _ place c hc => readInOrder_cons hv (hmore c hc) hafter (hend (place + 2))⟩
  | @more a b v w items body ha hb _ ih =>
    cases fields with
    | nil => exact absurd hitems (List.cons_ne_nil _ _)
    | cons name shape fields =>
      obtain ⟨_, _, heq, hv, hrest⟩ := hitems
      obtain ⟨rfl, rfl⟩ := List.cons.inj heq
      have hv := hreads.1 _ _ hv
      have hafter := stops_of_blank hb (stops_cons (.inl rfl) (body ++ ']' :: rest))
      have ⟨hfirst, hmore⟩ := nextItem_append hv.starts ha (b ++ ',' :: (body ++ ']' :: rest))
      have ⟨last, hlast, _, htail⟩ := ih hreads.2 hrest
      have hend (place : Nat) := htail (List.cons_ne_nil _ _) place b hb
      simp only [List.append_assoc, List.cons_append]
      exact ⟨last, hlast, readInOrder_cons hv hfirst hafter (hend 0),
        fun _ place c hc => readInOrder_cons hv (hmore c hc) hafter (hend (place + 1))⟩

end

theorem Reads.map {α β : Type} {read : List Char → Except ReadError (α × List Char)} {v : α}
    {cs : List Char} (h : Reads read v cs) (f : α → β) :
    Reads (fun cs => (read cs).map fun (v, rest) => (f v, rest)) (f v) cs := by
  refine ⟨h.starts, fun before rest hbefore hrest => ?_⟩
  rw [h.read_eq before rest hbefore hrest]
  rfl

theorem reads_optional {shape : Shape} (hshape : shape.isOptional = false)
    (hread : ∀ v cs, shape.Spells v cs → Reads (readShape shape) v cs)
    {v : shape.optional.Value} {cs : List Char} (h : shape.optional.Spells v cs) :
    Reads (readShape (.optional shape)) v cs := by
  cases v with
  | none =>
    have hcs : cs = "null".toList := h
    rw [hcs]
    refine ⟨starts_cons _ (by decide), fun before rest hbefore _ => ?_⟩
    unfold readShape
    rw [show "null".toList ++ rest = 'n' :: 'u' :: 'l' :: 'l' :: rest from rfl,
      skipSpace_mark hbefore (by decide)]
    rfl
  | some v =>
    have hv := hread v cs h
    have hhead := Shape.Spells.head_ne (show shape.Spells v cs from h) hshape
    refine ⟨hv.starts, fun before rest hbefore hrest => ?_⟩
    have hinner := hv.read_eq [] rest isBlank_nil hrest
    have hskip := hv.starts.skipSpace_eq hbefore rest
    obtain ⟨c, tail, rfl, hc⟩ := hhead
    unfold readShape
    rw [hskip]
    split
    next heq => exact absurd (List.cons.inj heq).1 hc
    next heq => exact absurd (List.cons.inj heq).1 hc
    next =>
      rw [List.nil_append] at hinner
      rw [hinner]
      rfl

theorem reads_list {shape : Shape}
    (hread : ∀ v cs, shape.Spells v cs → Reads (readShape shape) v cs)
    {vs : shape.list.Value} {cs : List Char} (h : shape.list.Spells vs cs) :
    Reads (readShape (.list shape)) vs cs := by
  obtain ⟨items, body, hitems, hbody, rfl⟩ := h
  refine ⟨starts_cons _ (by decide), fun before rest hbefore _ => ?_⟩
  have hfuel : items.length < (body ++ ']' :: rest).length + 1 := by
    have := hbody.length_le
    simp only [List.length_append, List.length_cons]
    omega
  unfold readShape
  rw [enclosed_append, skipSpace_mark hbefore (by decide)]
  exact (readItems_append (hitems.imp hread) hbody hfuel).1

theorem reads_record {name : String} {fields : Fields} (hnodup : fields.names.Nodup)
    (hreads : fields.Readable) {vs : fields.Values} {cs : List Char}
    (h : (Shape.record name fields).Spells vs cs) :
    Reads (readShape (.record name fields)) vs cs := by
  obtain ⟨ms, members, body, hms, hbody, hgiven, hother, rfl⟩ |
    ⟨items, body, hitems, hbody, rfl⟩ := h
  · refine ⟨starts_cons _ (by decide), fun before rest hbefore _ => ?_⟩
    have hfuel : members.length < (body ++ '\x7d' :: rest).length + 1 := by
      have := hbody.length_le
      simp only [List.length_append, List.length_cons]
      omega
    have ⟨filed, hpending, hread, _⟩ := readMembers_append hnodup hreads hms hbody
      (Fields.pending_nothing hgiven) hother hfuel rest
    unfold readShape
    rw [enclosed_append, skipSpace_mark hbefore (by decide)]
    simp only [hread, hpending.complete, bind, Except.bind]
  · refine ⟨starts_cons _ (by decide), fun before rest hbefore _ => ?_⟩
    have ⟨b, hb, hread, _⟩ := readInOrder_append
      ("struct " ++ name ++ " with " ++ elements (count fields)) hreads hitems hbody rest
    unfold readShape
    rw [enclosed_append, skipSpace_mark hbefore (by decide)]
    simp only [hread, skipSpace_mark hb (show isSpace ']' = false by decide), bind, Except.bind]

theorem reads_unsigned32 (n : UInt32) : Reads (readShape .unsigned32) n (integerText n.toNat) := by
  have hrange : (0 : Int) ≤ n.toNat ∧ (n.toNat : Int) ≤ 2 ^ 32 - 1 := by
    have := n.toNat_lt
    omega
  have hback : UInt32.ofNat (n.toNat : Int).toNat = n := by simp
  have hread := reads_readInteger "u32" (by decide) (by decide) hrange
  have hmap := hread.map fun n => UInt32.ofNat n.toNat
  rw [hback] at hmap
  exact hmap

theorem reads_signed32 (n : Int32) : Reads (readShape .signed32) n (integerText n.toInt) := by
  have hrange : -2 ^ 31 ≤ n.toInt ∧ n.toInt ≤ 2 ^ 31 - 1 := by
    have := n.le_toInt
    have := n.toInt_lt
    omega
  have hread := reads_readInteger "i32" (by decide) (by decide) hrange
  have hmap := hread.map Int32.ofInt
  rw [Int32.ofInt_toInt] at hmap
  exact hmap

mutual

/-- Every text of a value is read as that value. -/
theorem reads_readShape : ∀ {shape : Shape}, shape.IsSound → ∀ v cs, shape.Spells v cs →
    Reads (readShape shape) v cs
  | .text, _, _, _, h => reads_readText h
  | .unsigned32, _, n, _, h => Eq.symm h ▸ reads_unsigned32 n
  | .signed32, _, n, _, h => Eq.symm h ▸ reads_signed32 n
  | .domain, _, _, _, h => reads_readDomain h
  | .optional _, ⟨hinner, hsound⟩, _, _, h => reads_optional hinner (reads_readShape hsound) h
  | .list item, hsound, _, _, h => reads_list (reads_readShape (show item.IsSound from hsound)) h
  | .record _ _, ⟨hnodup, hsound⟩, _, _, h => reads_record hnodup (readable_of_isSound hsound) h

theorem readable_of_isSound : ∀ {fields : Fields}, fields.IsSound → fields.Readable
  | .nil, _ => trivial
  | .cons .., ⟨hshape, hrest⟩ => ⟨reads_readShape hshape, readable_of_isSound hrest⟩

end

theorem read_of_spelledBy {r : Record} {s : String} (h : r.SpelledBy s) : read s = .ok r := by
  obtain ⟨before, cs, after, hbefore, hafter, hspells, hs⟩ := h
  have hstops : Stops after := by
    have : Stops (after ++ []) := stops_of_blank hafter fun _ h => nomatch h
    rwa [List.append_nil] at this
  have hread := (reads_readShape isSound_shape _ _ hspells).read_eq before after hbefore hstops
  rw [read, hs, hread]
  simp only [bind, Except.bind, skipSpace_eq_nil hafter, if_true, ofValues_toValues]

end Record

end Sidecar
