import Mathlib
import Sidecar.Config
import Sidecar.Proofs.Toml.Sections

/-! Settings are read as they are written: whatever the order of sections and fields, and with
whatever else the document holds. The reader of documents has bounds, beyond which it refuses
settings that are well formed. -/

namespace Sidecar

open Toml

inductive WritesBoolean : Bool → List Char → Prop where
  | true : WritesBoolean true ['t', 'r', 'u', 'e']
  | false : WritesBoolean false ['f', 'a', 'l', 's', 'e']

/-- A field has a text that writes its value. It may be left out where that is the default. -/
def Tells (names : Names (List Char)) (s f : String) (writes : List Char → Prop)
    (isDefault : Prop) : Prop :=
  (∃ v, names [s, f] = some (.value v) ∧ writes v) ∨ names [s, f] = none ∧ isDefault

/-- What clauses say of a field: its value under the header of its section, or else nothing. -/
def Says (xs : List (Clause (List Char))) (s f : String) (writes : List Char → Prop)
    (isDefault : Prop) : Prop :=
  (∃ v, Outline.Gives xs s f v ∧ writes v) ∨ Outline.start.LeavesOut s f xs ∧ isDefault

namespace Config

/-- Each field of settings is told. -/
structure Fields (c : Config) (tells : String → String → (List Char → Prop) → Prop → Prop) :
    Prop where
  exclude : tells "scan" "exclude" (IsArray Quotes c.exclude) (c.exclude = default.exclude)
  strict : tells "generate" "strict" (WritesBoolean c.strict) (c.strict = default.strict)
  format : tells "output" "format" (fun v => ∃ s, c.format = some s ∧ Quotes s v)
    (c.format = default.format)
  colour : tells "output" "color" (fun v => ∃ b, c.colour = some b ∧ WritesBoolean b v)
    (c.colour = default.colour)

/-- What the names of a document say about settings. -/
structure ToldBy (c : Config) (names : Names (List Char)) : Prop where
  sections : ∀ s ∈ ["scan", "generate", "output"], names.IsSection s
  fields : c.Fields (Tells names)

/-- A text writes settings: it is a document that says them, whatever else it says. -/
def WrittenBy (bounded : Prop) (c : Config) (text : String) : Prop :=
  ∃ xs, IsDocument bounded xs text ∧ c.ToldBy (Outline.start.after xs).names

end Config

/-! ### Sections and fields -/

section

variable {names : Names (List Char)} {es fields : Entries} {s f : String} {v : List Char}
  {writes : List Char → Prop} {isDefault : Prop} {α : Type} {decode : Node → Option α} {a : α}

theorem exists_lookup_table (hrel : names.Rel IsReadAs es.names)
    (h : names [s] = some .table ∨ names [s] = some .parent ∨ names [s] = some .dotted) :
    ∃ origin inner, es.lookup s = some (.table origin inner) := by
  have hnode {st : Standing (List Char)} (h : names [s] = some st) :
      ∃ n, es.lookup s = some n ∧ Standing.Rel IsReadAs st n.standing := by
    obtain ⟨st', hst, hrel⟩ := hrel.exists_some h
    rw [Entries.names_singleton] at hst
    obtain ⟨n, hn, rfl⟩ := Option.map_eq_some_iff.mp hst
    exact ⟨n, hn, hrel⟩
  obtain h | h | h := h
  all_goals
    obtain ⟨n, hlookup, hstanding⟩ := hnode h
    have hn := n.of_standing
    generalize n.standing = st at hstanding hn
    cases hstanding
    obtain ⟨inner, rfl⟩ := hn
    exact ⟨_, inner, hlookup⟩

theorem exists_sectionOf? (hrel : names.Rel IsReadAs es.names) (h : names.IsSection s)
    (listed : List String) :
    ∃ fields, Config.sectionOf? es s listed = some fields ∧
      ∀ f, fields.names [f] = es.names [s, f] := by
  have htable : es.names [s] = none ∨ ∃ origin inner, es.lookup s = some (.table origin inner) := by
    obtain h | h := h
    · exact .inl (hrel.eq_none h)
    · exact .inr (exists_lookup_table hrel h)
  unfold Config.sectionOf?
  obtain h | ⟨origin, inner, h⟩ := htable
  · rw [Entries.names_singleton, Option.map_eq_none_iff] at h
    rw [h]
    refine ⟨[], rfl, fun f => ?_⟩
    rw [Entries.names_cons_of_none h, Entries.names_empty]
    rfl
  · rw [h]
    refine ⟨inner, rfl, fun f => ?_⟩
    rw [Entries.names_cons_of_lookup h (List.cons_ne_nil f [])]
    rfl

theorem field?_of_told (hrel : names.Rel IsReadAs es.names)
    (hfields : fields.names [f] = es.names [s, f]) (hv : names [s, f] = some (.value v))
    (hreads : Reads (value? (depthLimit - 1)) v (decode · = some a)) :
    Config.field? decode fields f = some (some a) := by
  obtain ⟨st, hst, hvalue⟩ := hrel.exists_some hv
  cases hvalue with
  | @value _ n hn =>
    rw [← hfields, Entries.names_singleton] at hst
    obtain ⟨m, hm, hstanding⟩ := Option.map_eq_some_iff.mp hst
    have heq := m.of_standing
    rw [hstanding] at heq
    obtain rfl : n = m := heq
    unfold Config.field?
    rw [hm]
    dsimp only
    rw [hn.2 _ hreads]
    rfl

theorem field?_of_free (hrel : names.Rel IsReadAs es.names)
    (hfields : fields.names [f] = es.names [s, f]) (hfree : names [s, f] = none) :
    Config.field? decode fields f = some none := by
  have hnone := hrel.eq_none hfree
  rw [← hfields, Entries.names_singleton, Option.map_eq_none_iff] at hnone
  unfold Config.field?
  rw [hnone]

/-- A field is decoded from its text, or else is left out. -/
theorem Tells.exists_field? {P : Option α → Prop} (h : Tells names s f writes isDefault)
    (hrel : names.Rel IsReadAs es.names) (hfields : fields.names [f] = es.names [s, f])
    (hwritten : ∀ v, writes v →
      ∃ a, P (some a) ∧ Reads (value? (depthLimit - 1)) v (decode · = some a))
    (hdefault : isDefault → P none) :
    ∃ o, Config.field? decode fields f = some o ∧ P o := by
  obtain ⟨v, hv, hwrites⟩ | ⟨hfree, hisDefault⟩ := h
  · obtain ⟨a, ha, hreads⟩ := hwritten v hwrites
    exact ⟨some a, field?_of_told hrel hfields hv hreads, ha⟩
  · exact ⟨none, field?_of_free hrel hfields hfree, hdefault hisDefault⟩

end

/-- Clauses that leave a field out, or give it under the header of its section, come to that. -/
theorem Says.tells {xs : List (Clause (List Char))} {s f : String} {writes : List Char → Prop}
    {isDefault bounded : Prop} (h : Says xs s f writes isDefault)
    (hadmits : Outline.start.AdmitsAll bounded xs) (hpaths : ∀ x ∈ xs, x.path ≠ []) :
    (Outline.start.after xs).names.IsSection s ∧
      Tells (Outline.start.after xs).names s f writes isDefault := by
  obtain ⟨v, hgives, hwrites⟩ | ⟨hleaves, hisDefault⟩ := h
  · obtain ⟨hsection, hfield⟩ := hgives.names_after hadmits hpaths
    exact ⟨.inr (.inl hsection), .inl ⟨v, hfield, hwrites⟩⟩
  · obtain ⟨hfree, hsection⟩ := hleaves.names_after rfl (.inl rfl)
    exact ⟨hsection, .inr ⟨hfree, hisDefault⟩⟩

theorem WritesBoolean.reads {b : Bool} {v : List Char} (h : WritesBoolean b v) (depth : Nat) :
    Reads (value? depth) v (Config.boolean? · = some b) := by
  cases h with
  | true => exact ⟨⟨_, _, rfl, by decide⟩, fun rest _ => ⟨_, rfl, value?.eq_5 depth rest⟩⟩
  | false => exact ⟨⟨_, _, rfl, by decide⟩, fun rest _ => ⟨_, rfl, value?.eq_6 depth rest⟩⟩

theorem mapM_text? {ss : List String} {ns : List Node}
    (h : List.Forall₂ (fun s n => n = .text s) ss ns) : ns.mapM Config.text? = some ss := by
  induction h with
  | nil => rfl
  | cons hn _ ih =>
    rw [List.mapM_cons, hn, ih]
    rfl

theorem reads_texts {ss : List String} {v : List Char} (h : IsArray Quotes ss v) (depth : Nat) :
    Reads (value? (depth + 1)) v (Config.texts? · = some ss) := by
  apply (h.reads fun s v hv => hv.reads depth).mono
  rintro n ⟨ns, hns, rfl⟩
  exact mapM_text? hns

namespace Config

theorem ofEntries?_of_toldBy {c : Config} {names : Names (List Char)} {es : Entries}
    (h : c.ToldBy names) (hrel : names.Rel IsReadAs es.names) : ofEntries? es = some c := by
  obtain ⟨scan, hscan, hscanFields⟩ :=
    exists_sectionOf? hrel (h.sections "scan" (by simp)) ["exclude"]
  obtain ⟨generate, hgenerate, hgenerateFields⟩ :=
    exists_sectionOf? hrel (h.sections "generate" (by simp)) ["strict"]
  obtain ⟨output, houtput, houtputFields⟩ :=
    exists_sectionOf? hrel (h.sections "output" (by simp)) ["format", "color"]
  have hquoted (v : List Char) (hv : ∃ s, c.format = some s ∧ Quotes s v) :
      ∃ s, some s = c.format ∧ Reads (value? (depthLimit - 1)) v (text? · = some s) := by
    obtain ⟨s, hs, hv⟩ := hv
    exact ⟨s, hs.symm, (hv.reads _).mono fun n hn => by rw [hn]; rfl⟩
  have hsettled (v : List Char) (hv : ∃ b, c.colour = some b ∧ WritesBoolean b v) :
      ∃ b, some b = c.colour ∧ Reads (value? (depthLimit - 1)) v (boolean? · = some b) := by
    obtain ⟨b, hb, hv⟩ := hv
    exact ⟨b, hb.symm, hv.reads _⟩
  obtain ⟨exclude, hexclude, hexclude'⟩ :=
    h.fields.exclude.exists_field? (P := (·.getD [] = c.exclude)) hrel (hscanFields _)
      (fun v hv => ⟨c.exclude, rfl, reads_texts hv _⟩) Eq.symm
  obtain ⟨strict, hstrict, hstrict'⟩ :=
    h.fields.strict.exists_field? (P := (·.getD false = c.strict)) hrel (hgenerateFields _)
      (fun v hv => ⟨c.strict, rfl, hv.reads _⟩) Eq.symm
  obtain ⟨format, hformat, rfl⟩ :=
    h.fields.format.exists_field? (P := (· = c.format)) hrel (houtputFields _) hquoted Eq.symm
  obtain ⟨colour, hcolour, rfl⟩ :=
    h.fields.colour.exists_field? (P := (· = c.colour)) hrel (houtputFields _) hsettled Eq.symm
  simp only [ofEntries?, hscan, hgenerate, houtput, hexclude, hstrict, hformat, hcolour, bind,
    Option.bind, hexclude', hstrict']
  rfl

end Config

/-! ### Plain lines -/

section

variable {bounded : Prop} {k : String} {p : List String} {v line : List Char} {depth : Nat}

/-- A name that needs no quotes. -/
def IsBare (k : String) : Prop :=
  k.toList ≠ [] ∧ ∀ c ∈ k.toList, isBareKeyChar c = true

theorem isBlanks_one : IsBlanks [' '] := by
  simp [IsBlanks, isBlank]

theorem IsBare.isKey (h : IsBare k) : IsKey [k] k.toList :=
  .one (.bare rfl h.1 h.2)

theorem IsBare.isKey_cons (h : IsBare k) (hline : IsKey p line) :
    IsKey (k :: p) (k.toList ++ '.' :: line) :=
  .dot (.bare rfl h.1 h.2) isBlanks_nil isBlanks_nil hline

theorem isPair_of_isKey (h : IsKey p line) (v : List Char) :
    IsPair p v (line ++ ' ' :: '=' :: ' ' :: v) :=
  ⟨line, [' '], [' '], h, isBlanks_one, isBlanks_one, rfl⟩

theorem IsBare.isPair (h : IsBare k) (v : List Char) :
    IsPair [k] v (k.toList ++ ' ' :: '=' :: ' ' :: v) :=
  isPair_of_isKey h.isKey v

theorem isLine_header (h : IsKey p line) (hbounds : bounded → p.length < depthLimit) :
    IsLine bounded [.header p] ('[' :: (line ++ [']'])) := by
  have hclause : IsClause bounded (.header p) ('[' :: ([] ++ (line ++ ([] ++ [']'])))) :=
    .header h isBlanks_nil isBlanks_nil hbounds
  simpa using IsLine.clause isBlanks_nil hclause isBlanks_nil .none

theorem isLine_pair (h : IsPair p v line) (hv : IsValue bounded depth v)
    (hbounds : bounded → p.length < depthLimit ∧ depth < depthLimit) :
    IsLine bounded [.assignment p v] line := by
  simpa using IsLine.clause isBlanks_nil (.assignment h hv hbounds) isBlanks_nil .none

end

/-! ### Within the bounds -/

namespace Config

section

variable {c : Config} {xs : List (Clause (List Char))} {text : String} {bounded : Prop}

theorem Fields.toldBy (h : c.Fields (Says xs)) (hdocument : IsDocument bounded xs text) :
    c.ToldBy (Outline.start.after xs).names := by
  obtain ⟨cs, hlines, -, hadmits⟩ := hdocument
  have hpaths := hlines.path_ne_nil
  obtain ⟨hscan, hexclude⟩ := h.exclude.tells hadmits hpaths
  obtain ⟨hgenerate, hstrict⟩ := h.strict.tells hadmits hpaths
  obtain ⟨houtput, hformat⟩ := h.format.tells hadmits hpaths
  obtain ⟨-, hcolour⟩ := h.colour.tells hadmits hpaths
  exact ⟨by simp [hscan, hgenerate, houtput], hexclude, hstrict, hformat, hcolour⟩

theorem parse?_of_toldBy (hdocument : IsDocument True xs text)
    (htold : c.ToldBy (Outline.start.after xs).names) : parse? text = some c := by
  obtain ⟨es, hes, hrel⟩ := hdocument.exists_parse?
  rw [parse?, hes, Option.bind_some, ofEntries?_of_toldBy htold hrel]

/-- Sections under their headers are read, in whatever order and whatever else stands between. -/
theorem parse?_of_says (hdocument : IsDocument True xs text) (h : c.Fields (Says xs)) :
    parse? text = some c :=
  parse?_of_toldBy hdocument (h.toldBy hdocument)

end

/-- Settings that are written within the bounds of the reader are read as they are written. -/
theorem parse?_of_writtenBy {c : Config} {text : String} (h : c.WrittenBy True text) :
    parse? text = some c := by
  obtain ⟨xs, hdocument, htold⟩ := h
  exact parse?_of_toldBy hdocument htold

/-- Two of three sections, with a comment, an escape, and a section of something else. -/
def siteText : String :=
  "[output]\nformat = \"table\" # wide\n[further]\nx.y = [true, false]\n" ++
    "[scan]\nexclude = [\n\"\\u00E9\",\"*.tmp\", ]\n"

def siteSettings : Config :=
  ⟨["é", "*.tmp"], false, some "table", none⟩

theorem quotes_plain {s : String} (h : ∀ c ∈ s.toList, isPlain c = true ∧ c ≠ '"' ∧ c ≠ '\\') :
    Quotes s ('"' :: (s.toList ++ ['"'])) :=
  ⟨s.toList, .of_forall h, rfl⟩

theorem quotes_accent :
    Quotes "é" ('"' :: ('\\' :: 'u' :: ['0', '0', 'E', '9'] ++ [] ++ ['"'])) := by
  have hzero : Json.IsHexDigit '0' 0 := ⟨by decide, .inl rfl⟩
  have hnine : Json.IsHexDigit '9' 9 := ⟨by decide, .inl rfl⟩
  have hletter : Json.IsHexDigit 'E' 14 := ⟨by decide, .inr rfl⟩
  have hhex : WritesHex 'é'.toNat ['0', '0', 'E', '9'] :=
    .concat (.concat (.concat (.concat .nil hzero) hzero) hletter) hnine
  have hlist : "é".toList = ['é'] := by simp
  refine ⟨_, ?_, rfl⟩
  rw [hlist]
  exact .escape (.four hhex rfl) .nil

theorem siteText_writtenBy : siteSettings.WrittenBy True siteText := by
  have hbare : IsBare "output" ∧ IsBare "format" ∧ IsBare "further" ∧ IsBare "x" ∧ IsBare "y" ∧
      IsBare "scan" ∧ IsBare "exclude" := by
    simp [IsBare, isBareKeyChar]
  obtain ⟨houtput, hformat, hfurther, hx, hy, hscan, hexclude⟩ := hbare
  have hone : 1 < depthLimit := by simp [depthLimit]
  have htwo : 2 < depthLimit := by simp [depthLimit]
  have htable : Quotes "table" _ := quotes_plain (by simp [isPlain])
  have hpattern : Quotes "*.tmp" _ := quotes_plain (by simp [isPlain])
  have hwide : ∀ c ∈ " wide".toList, isPlain c = true := by simp [isPlain]
  have hstring : IsValue True 0 _ := IsScalar.string (.basic htable)
  have hflags : IsArray WritesBoolean [true, false] _ :=
    ⟨_, .more .nil .true .nil (.last (.blank (c := ' ') rfl .nil) .false .nil), rfl⟩
  have hpatterns : IsArray Quotes ["é", "*.tmp"] _ :=
    ⟨_, .more (.newline (.inl rfl) .nil) quotes_accent .nil
      (.more .nil hpattern .nil (.close (.blank (c := ' ') rfl .nil))), rfl⟩
  have hflagsValue : IsValue True 1 _ := hflags.isValue fun a w hw => by
    cases hw
    · exact IsScalar.true
    · exact IsScalar.false
  have hpatternsValue : IsValue True 1 _ :=
    hpatterns.isValue fun a w hw => IsScalar.string (.basic hw)
  have hformatClause : IsClause True (.assignment ["format"] _) _ :=
    .assignment (hformat.isPair _) hstring fun _ => ⟨hone, Nat.zero_lt_of_lt hone⟩
  have hflagsLine := isLine_pair (isPair_of_isKey (hx.isKey_cons hy.isKey) _) hflagsValue
    fun _ : True => ⟨htwo, hone⟩
  have hexcludeLine := isLine_pair (hexclude.isPair _) hpatternsValue fun _ : True => ⟨hone, hone⟩
  have hlines := AreLines.cons (isLine_header houtput.isKey fun _ => hone)
    (.cons (.clause isBlanks_nil hformatClause isBlanks_one (.some hwide))
    (.cons (isLine_header hfurther.isKey fun _ => hone)
    (.cons hflagsLine
    (.cons (isLine_header hscan.isKey fun _ => hone)
    (.cons hexcludeLine (areLines_nil True))))))
  refine ⟨_, ⟨_, hlines, .inl ?_, ?_⟩, ?_⟩
  · decide +kernel
  · decide +kernel
  · refine ⟨?_, .inl ⟨_, ?_, hpatterns⟩, .inr ⟨?_, rfl⟩, .inl ⟨_, ?_, "table", rfl, htable⟩,
      .inr ⟨?_, rfl⟩⟩
    all_goals decide +kernel

/-- It leaves strictness and colour out. -/
theorem parse?_of_writtenBy_siteText :
    siteSettings.WrittenBy True siteText ∧ parse? siteText = some siteSettings :=
  ⟨siteText_writtenBy, parse?_of_writtenBy siteText_writtenBy⟩

end Config

/-! ### Beyond the bounds -/

namespace Config

theorem isBare_names : IsBare "generate" ∧ IsBare "strict" ∧ IsBare "further" ∧ IsBare "x" := by
  simp [IsBare, isBareKeyChar]

/-- Strict settings. -/
def strictLines : List Char :=
  ('[' :: ("generate".toList ++ [']'])) ++ '\n' ::
    ("strict".toList ++ ' ' :: '=' :: ' ' :: ['t', 'r', 'u', 'e'])

theorem areLines_strict {bounded : Prop} {xs : List (Clause (List Char))} {cs : List Char}
    (h : AreLines bounded xs cs) :
    AreLines bounded (.header ["generate"] :: .assignment ["strict"] ['t', 'r', 'u', 'e'] :: xs)
      (strictLines ++ '\n' :: cs) := by
  have hheader := isLine_header isBare_names.1.isKey fun _ : bounded => by simp [depthLimit]
  have htrue : IsValue bounded 0 ['t', 'r', 'u', 'e'] := IsScalar.true
  have hfield := isLine_pair (isBare_names.2.1.isPair _) htrue fun _ => by simp [depthLimit]
  have hlines := AreLines.cons hheader (.cons hfield h)
  rwa [strictLines, List.append_assoc]

/-- Strict settings, with a section of something else. -/
def strictWith (line : String) : String :=
  "[generate]\nstrict = true\n[further]\n" ++ line ++ "\n"

theorem toList_strictWith (line : String) : (strictWith line).toList =
    strictLines ++ '\n' :: (('[' :: ("further".toList ++ [']'])) ++ '\n' ::
      (line.toList ++ ['\n'])) := by
  have hfront : "[generate]\nstrict = true\n[further]\n".toList =
      strictLines ++ '\n' :: (('[' :: ("further".toList ++ [']'])) ++ ['\n']) := by
    simp [strictLines]
  have hend : "\n".toList = ['\n'] := by simp
  unfold strictWith
  rw [String.toList_append, String.toList_append, hfront, hend]
  simp only [List.append_assoc, List.cons_append, List.nil_append]

/-- What a document comes to in front of the last line of a section of something else. -/
def beforeLast : Outline (List Char) :=
  Outline.start.after
    [.header ["generate"], .assignment ["strict"] ['t', 'r', 'u', 'e'], .header ["further"]]

theorem names_beforeLast (r : List String) : beforeLast.names r =
    if r = ["further"] then some .table
    else if r = ["generate", "strict"] then some (.value ['t', 'r', 'u', 'e'])
    else if r = ["generate"] then some .table
    else none := by
  have hone (k : String) : ¬IsBetween [] r [k] := not_isBetween_concat (p := [])
  have htwo : ¬IsBetween ["generate"] r ["generate", "strict"] :=
    not_isBetween_concat (p := ["generate"])
  simp [beforeLast, Outline.after, Outline.add, Outline.start, Names.tell, Names.nothing, hone,
    htwo]

theorem strictWith_writtenBy {p : List String} {v : List Char} {line : String} {depth : Nat}
    (hpair : IsPair p v line.toList) (hv : IsValue False depth v) :
    WrittenBy False ⟨[], true, none, none⟩ (strictWith line) := by
  have hfurther := isLine_header isBare_names.2.2.1.isKey False.elim
  have hlines := areLines_strict (.cons hfurther
    (.cons (isLine_pair hpair hv False.elim) (areLines_nil False)))
  rw [← toList_strictWith] at hlines
  have hp : p ≠ [] := by
    obtain ⟨front, last, rfl⟩ := hpair.exists_concat
    simp
  have hfree (t : List String) (ht : t ≠ []) : beforeLast.names (["further"] ++ t) = none := by
    simp [names_beforeLast, ht]
  refine ⟨_, ⟨_, hlines, .inl rfl, ?_⟩, ?_⟩
  · refine ⟨⟨fun r hr => ?_, .inl rfl⟩, ⟨fun r hr => ?_, False.elim, rfl⟩,
      ⟨fun r hr => ?_, .inl rfl⟩, ⟨fun r hr => .inl ?_, False.elim, hfree p hp⟩, trivial⟩
    · exact absurd hr (not_isBetween_concat (p := []))
    · exact absurd hr not_isBetween_concat
    · exact absurd hr (not_isBetween_concat (p := []))
    · obtain ⟨⟨⟨t, rfl⟩, hne⟩, -⟩ := hr
      exact hfree t (by rintro rfl; simp at hne)
  · have hnames {r : List String} (hr : ¬["further"] <+: r) :
        (beforeLast.add (.assignment p v)).names r = beforeLast.names r := by
      have hlast : r ≠ ["further"] ++ p := fun heq => hr (heq ▸ List.prefix_append _ _)
      have hway : ¬IsBetween ["further"] r (["further"] ++ p) := fun h => hr h.1.1
      change (if r = ["further"] ++ p then _ else if _ then _ else beforeLast.names r) = _
      rw [if_neg hlast, if_neg (fun hand => hway hand.1)]
    change ToldBy _ (beforeLast.add (.assignment p v)).names
    refine ⟨?_, .inr ⟨?_, rfl⟩, .inl ⟨_, ?_, .true⟩, .inr ⟨?_, rfl⟩, .inr ⟨?_, rfl⟩⟩
    · intro s hs
      simp only [List.mem_cons, List.not_mem_nil, or_false] at hs
      obtain rfl | rfl | rfl := hs <;> simp [Names.IsSection, hnames, names_beforeLast]
    all_goals
      rw [hnames (by simp), names_beforeLast]
      simp

/-- So many arrays, each the only item of the one before. -/
def arrays (n : Nat) : List Char :=
  List.replicate n '[' ++ List.replicate n ']'

theorem isValue_arrays (bounded : Prop) (n : Nat) : IsValue bounded (n + 1) (arrays (n + 1)) := by
  induction n with
  | zero => exact .inr (.inl ⟨[], _, .close .nil, rfl⟩)
  | succ n ih =>
    refine .inr (.inl ⟨[arrays (n + 1)], _, .last .nil ⟨rfl, ih⟩ .nil, ?_⟩)
    rw [arrays, List.replicate_succ (n := n + 1) (a := '['),
      List.replicate_succ' (n := n + 1) (a := ']'), arrays, List.nil_append, List.nil_append,
      List.cons_append, List.append_assoc]

/-- A key of so many names and one more. -/
def names (n : Nat) : List Char :=
  (List.replicate n ['x', '.']).flatten ++ ['x']

theorem isKey_names (n : Nat) : IsKey (List.replicate (n + 1) "x") (names n) := by
  have hx : IsName "x" ['x'] := .bare (by simp) (by simp) (by simp [isBareKeyChar])
  induction n with
  | zero => exact .one hx
  | succ n ih =>
    have hdot : IsKey (List.replicate (n + 2) "x") (['x'] ++ ([] ++ '.' :: ([] ++ names n))) :=
      .dot hx isBlanks_nil isBlanks_nil ih
    simpa [names, List.replicate_succ] using hdot

/-- Lines that are well formed and that the reader refuses: arrays are nested too deep, a key has
too many names, or a number is too large. -/
def refusedLines : List String :=
  ["x = " ++ String.ofList (arrays 80), String.ofList (names 79) ++ " = 1",
    "x = 9223372036854775808", "x = 1e400"]

theorem refusedLines_isPair {line : String} (h : line ∈ refusedLines) :
    ∃ p v depth, IsPair p v line.toList ∧ IsValue False depth v := by
  have hx := isBare_names.2.2.2
  have hbounded {P : Prop} (h : False) : P := h.elim
  simp only [refusedLines, List.mem_cons, List.not_mem_nil, or_false] at h
  obtain rfl | rfl | rfl | rfl := h
  · refine ⟨["x"], arrays 80, 80, ?_, isValue_arrays False 79⟩
    simpa using hx.isPair (arrays 80)
  · refine ⟨_, ['1'], 0, ⟨_, [' '], [' '], isKey_names 79, isBlanks_one, isBlanks_one, ?_⟩, ?_⟩
    · simp
    · have hone : IsWhole ['1'] ['1'] := .run (by simp) (.one (by decide))
      exact IsScalar.integer (.decimal .none hone) hbounded
  · have hrun : IsRun Char.isDigit "9223372036854775808".toList "9223372036854775808".toList :=
      .of_forall (by simp) (by simp)
    refine ⟨["x"], _, 0, ?_, IsScalar.integer (.decimal .none (.run (by simp) hrun)) hbounded⟩
    simpa using hx.isPair "9223372036854775808".toList
  · have hone : IsWhole ['1'] ['1'] := .run (by simp) (.one (by decide))
    have hrun : IsRun Char.isDigit ['4', '0', '0'] ['4', '0', '0'] :=
      .of_forall (by simp) (by simp)
    have hdecimal := IsDecimal.exponent .none hone (.mk (.inl rfl) .none hrun)
    refine ⟨["x"], _, 0, ?_, IsScalar.decimal hdecimal hbounded⟩
    simpa using hx.isPair ['1', 'e', '4', '0', '0']

/-- A dotted key adds to a table that is only part of a longer header. -/
def refusedKey : String :=
  "[generate]\nstrict = true\n[a.b.c]\n[a]\nb.y = 1\n"

theorem refusedKey_writtenBy : WrittenBy False ⟨[], true, none, none⟩ refusedKey := by
  have hbare : IsBare "a" ∧ IsBare "b" ∧ IsBare "c" ∧ IsBare "y" := by simp [IsBare, isBareKeyChar]
  obtain ⟨ha, hb, hc, hy⟩ := hbare
  have hone : IsWhole ['1'] ['1'] := .run (by simp) (.one (by decide))
  have hvalue : IsValue False 0 ['1'] := IsScalar.integer (.decimal .none hone) False.elim
  have hlines := areLines_strict
    (.cons (isLine_header (ha.isKey_cons (hb.isKey_cons hc.isKey)) False.elim)
      (.cons (isLine_header ha.isKey False.elim)
        (.cons (isLine_pair (isPair_of_isKey (hb.isKey_cons hy.isKey) _) hvalue False.elim)
          (areLines_nil False))))
  refine ⟨_, ⟨_, hlines, .inl ?_, ?_⟩, ?_⟩
  · decide +kernel
  · decide +kernel
  · refine ⟨?_, .inr ⟨?_, rfl⟩, .inl ⟨_, ?_, .true⟩, .inr ⟨?_, rfl⟩, .inr ⟨?_, rfl⟩⟩
    all_goals decide +kernel

/-- Well formed settings that are refused, one text for each bound of the reader. -/
theorem not_parsed_beyond_bounds :
    (∀ line ∈ refusedLines, WrittenBy False ⟨[], true, none, none⟩ (strictWith line) ∧
      parse? (strictWith line) = none) ∧
    WrittenBy False ⟨[], true, none, none⟩ refusedKey ∧ parse? refusedKey = none := by
  refine ⟨fun line hline => ⟨?_, ?_⟩, refusedKey_writtenBy, by decide +kernel⟩
  · obtain ⟨p, v, depth, hpair, hv⟩ := refusedLines_isPair hline
    exact strictWith_writtenBy hpair hv
  · have hall : ∀ line ∈ refusedLines, parse? (strictWith line) = none := by decide +kernel
    exact hall line hline

end Config

end Sidecar
