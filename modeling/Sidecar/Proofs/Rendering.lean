import Sidecar.Proofs.Reading

/-! The text of a sidecar is one of the spellings of its record, so reading undoes rendering. -/

namespace Sidecar

open Json

namespace Json

theorem isBlank_indent (depth : Nat) : IsBlank (indent depth) := by
  intro c hc
  obtain rfl | hc := List.mem_cons.mp hc
  · rfl
  · rw [List.eq_of_mem_replicate hc]
    rfl

/-- One text a line, with commas at the ends of the lines. -/
def lines (depth : Nat) (texts : List (List Char)) : List Char :=
  texts.flatMap fun text => ',' :: indent depth ++ text

theorem separated_lines (v : List Char) (vs : List (List Char)) (depth last : Nat) :
    Separated (v :: vs) (indent depth ++ v ++ lines depth vs ++ indent last) := by
  have hindent := isBlank_indent depth
  induction vs generalizing v with
  | nil =>
    rw [lines, List.flatMap_nil, List.append_nil]
    exact .last hindent (isBlank_indent last)
  | cons w vs ih =>
    have h := Separated.more (v := v) hindent isBlank_nil (ih w)
    simpa [lines] using h

def prettyMember (depth : Nat) (m : String × Json) : List Char :=
  quote m.1.toList ++ [':', ' '] ++ m.2.pretty depth

theorem moreItems_eq (depth : Nat) (js : List Json) :
    pretty.moreItems depth js = lines depth (js.map (pretty depth)) := by
  induction js with
  | nil => rw [pretty.moreItems]; rfl
  | cons j js ih =>
    rw [pretty.moreItems, ih]
    simp [lines]

theorem moreMembers_eq (depth : Nat) (ms : List (String × Json)) :
    pretty.moreMembers depth ms = lines depth (ms.map (prettyMember depth)) := by
  induction ms with
  | nil => rw [pretty.moreMembers]; rfl
  | cons m ms ih =>
    rw [pretty.moreMembers, ih]
    simp [lines, prettyMember]

theorem exists_pretty_array (depth : Nat) (js : List Json) : ∃ body,
    Separated (js.map (pretty (depth + 1))) body ∧
      pretty depth (.array js) = '[' :: (body ++ [']']) := by
  cases js with
  | nil => exact ⟨[], .none isBlank_nil, by rw [pretty]; rfl⟩
  | cons j js =>
    refine ⟨_, separated_lines (pretty (depth + 1) j) _ (depth + 1) depth, ?_⟩
    rw [pretty, moreItems_eq]
    simp

theorem exists_pretty_object (depth : Nat) (ms : List (String × Json)) : ∃ body,
    Separated (ms.map (prettyMember (depth + 1))) body ∧
      pretty depth (.object ms) = '\x7b' :: (body ++ ['\x7d']) := by
  cases ms with
  | nil => exact ⟨[], .none isBlank_nil, by rw [pretty]; rfl⟩
  | cons m ms =>
    refine ⟨_, separated_lines (prettyMember (depth + 1) m) _ (depth + 1) depth, ?_⟩
    rw [pretty, moreMembers_eq]
    simp [prettyMember]

theorem spellsMember_prettyMember (depth : Nat) (m : String × Json) :
    SpellsMember (m.1, m.2.pretty depth) (prettyMember depth m) := by
  have hspace : IsBlank [' '] := by simp [IsBlank, isSpace]
  have h := SpellsMember.mk (v := m.2.pretty depth) (quotes_quote m.1) isBlank_nil hspace
  rw [prettyMember, List.append_assoc]
  exact h

end Json

/-- What is printed for a value spells it, at any depth. -/
def Shape.Printable (shape : Shape) : Prop :=
  ∀ v depth, shape.Spells v (pretty depth (shape.toJson v))

namespace Fields

def Printable : Fields → Prop
  | .nil => True
  | .cons _ shape rest => shape.Printable ∧ rest.Printable

theorem keys_toMembers : ∀ {fields : Fields} (vs : fields.Values),
    (fields.toMembers vs).map Prod.fst = fields.names
  | .nil, _ => rfl
  | .cons name shape rest, (v, vs) => by
    rw [toMembers, List.map_cons, keys_toMembers, names]

/-- The members as they are printed, in the order of the fields. -/
def printed (depth : Nat) (fields : Fields) (vs : fields.Values) : List (String × List Char) :=
  (fields.toMembers vs).map fun m => (m.1, m.2.pretty depth)

theorem valuesOf_printed_eq_nil {name : String} {fields : Fields} (h : name ∉ fields.names)
    (depth : Nat) (vs : fields.Values) : valuesOf name (fields.printed depth vs) = [] := by
  rw [valuesOf, List.map_eq_nil_iff, List.filter_eq_nil_iff]
  intro m hm hname
  obtain ⟨member, hmember, rfl⟩ := List.mem_map.mp hm
  have hkey := List.mem_map_of_mem (f := Prod.fst) hmember
  rw [keys_toMembers, show member.1 = name by simpa using hname] at hkey
  exact h hkey

/-- Every field is given once by what is printed, in whatever order. -/
theorem givenBy_of_perm (depth : Nat) {ms : List (String × List Char)} :
    ∀ {fields : Fields} {vs : fields.Values}, fields.Printable → fields.names.Nodup →
      (∀ name ∈ fields.names,
        (valuesOf name ms).Perm (valuesOf name (fields.printed depth vs))) → fields.GivenBy vs ms
  | .nil, _, _, _, _ => trivial
  | .cons name shape rest, (v, vs), ⟨hprint, hprints⟩, hnodup, hperm => by
    have ⟨hname, hnodup⟩ := List.nodup_cons.mp hnodup
    have hprinted : Fields.printed depth (.cons name shape rest) (v, vs) =
        (name, pretty depth (shape.toJson v)) :: rest.printed depth vs := rfl
    refine ⟨.inl ⟨_, ?_, hprint v depth⟩,
      givenBy_of_perm depth hprints hnodup fun other hother => ?_⟩
    · have h := hperm name List.mem_cons_self
      rw [hprinted, valuesOf_cons_self, valuesOf_printed_eq_nil hname] at h
      exact List.perm_singleton.mp h
    · have h := hperm other (List.mem_cons_of_mem _ hother)
      have hne : name ≠ other := fun heq => hname (heq ▸ hother)
      rwa [hprinted, valuesOf_cons_of_ne hne] at h

end Fields

namespace Record

theorem printable_list {shape : Shape} (h : shape.Printable) : shape.list.Printable := by
  intro vs depth
  have ⟨body, hbody, hpretty⟩ := exists_pretty_array depth (vs.map shape.toJson)
  refine ⟨_, body, ?_, hbody, hpretty⟩
  rw [List.map_map, List.forall₂_map_right_iff, List.forall₂_same]
  exact fun v _ => h v (depth + 1)

theorem printable_record {name : String} {fields : Fields} (hnodup : fields.names.Nodup)
    (h : fields.Printable) : (Shape.record name fields).Printable := by
  intro vs depth
  have hperm := List.mergeSort_perm (fields.toMembers vs) fun a b => a.1 ≤ b.1
  generalize hsorted : (fields.toMembers vs).mergeSort (fun a b => a.1 ≤ b.1) = sorted at hperm
  have ⟨body, hbody, hpretty⟩ := exists_pretty_object depth sorted
  have hkey : ∀ m ∈ sorted, m.1 ∈ fields.names := by
    intro m hm
    have := List.mem_map_of_mem (f := Prod.fst) (hperm.mem_iff.mp hm)
    rwa [Fields.keys_toMembers] at this
  refine .inl ⟨sorted.map fun m => (m.1, m.2.pretty (depth + 1)), _, body, ?_, hbody, ?_, ?_, ?_⟩
  · rw [List.forall₂_map_right_iff, List.forall₂_map_left_iff, List.forall₂_same]
    exact fun m _ => spellsMember_prettyMember (depth + 1) m
  · exact Fields.givenBy_of_perm (depth + 1) h hnodup fun _ _ => ((hperm.map _).filter _).map _
  · intro m hm hnot
    obtain ⟨member, hmember, rfl⟩ := List.mem_map.mp hm
    exact absurd (hkey member hmember) hnot
  · rw [← hpretty, ← hsorted]
    rfl

mutual

theorem printable_of_isSound : ∀ {shape : Shape}, shape.IsSound → shape.Printable
  | .text, _ => fun s _ => quotes_quote s
  | .unsigned32, _ => fun _ _ => rfl
  | .signed32, _ => fun _ _ => rfl
  | .domain, _ => fun d _ => .inl (quotes_quote d.name)
  | .optional _, ⟨_, hsound⟩ => fun v depth =>
    match v with
    | none => rfl
    | some v => printable_of_isSound hsound v depth
  | .list item, hsound => printable_list (printable_of_isSound (show item.IsSound from hsound))
  | .record _ _, ⟨hnodup, hsound⟩ => printable_record hnodup (printables_of_isSound hsound)

theorem printables_of_isSound : ∀ {fields : Fields}, fields.IsSound → fields.Printable
  | .nil, _ => trivial
  | .cons .., ⟨hshape, hrest⟩ => ⟨printable_of_isSound hshape, printables_of_isSound hrest⟩

end

theorem spelledBy_render (r : Record) : r.SpelledBy r.render := by
  have hnewline : IsBlank ['\n'] := by simp [IsBlank, isSpace]
  refine ⟨[], _, ['\n'], isBlank_nil, hnewline,
    printable_of_isSound isSound_shape r.toValues 0, ?_⟩
  rw [render, prettyText, String.toList_append, String.toList_ofList]
  rfl

theorem read_render (r : Record) : read r.render = .ok r :=
  read_of_spelledBy (spelledBy_render r)

/-- Reads a record and renders it again. -/
def reformat (s : String) : Except ReadError String :=
  (read s).map render

theorem reformat_render (r : Record) : reformat r.render = .ok r.render := by
  rw [reformat, read_render]
  rfl

/-- Reading undoes rendering. So no two records share a text, and a text that a record was rendered
to stays as it is. -/
theorem rendering_is_undone :
    (∀ r : Record, read r.render = .ok r) ∧ Function.Injective render ∧
      ∀ s, (reformat s >>= reformat) = reformat s := by
  refine ⟨read_render, fun r r' h => ?_, fun s => ?_⟩
  · have hr := read_render r
    rw [h, read_render r'] at hr
    exact (Except.ok.inj hr).symm
  · cases h : read s with
    | error e =>
      rw [reformat, h]
      rfl
    | ok r =>
      have hs : reformat s = .ok r.render := by
        rw [reformat, h]
        rfl
      rw [hs]
      exact reformat_render r

/-- Whichever way a record is spelled, it is what is read, and rendering it gives one text. -/
theorem reformat_of_spelledBy {r : Record} {s : String} (h : r.SpelledBy s) :
    read s = .ok r ∧ reformat s = .ok r.render := by
  have hread := read_of_spelledBy h
  refine ⟨hread, ?_⟩
  rw [reformat, hread]
  rfl

def compactMember (m : String × List Char) : List Char :=
  quote m.1.toList ++ ':' :: m.2

theorem forall₂_compactMember (ms : List (String × List Char)) :
    List.Forall₂ SpellsMember ms (ms.map compactMember) := by
  rw [List.forall₂_map_right_iff, List.forall₂_same]
  exact fun m _ => .mk (quotes_quote m.1) isBlank_nil isBlank_nil

def varied : Record :=
  ⟨2, "T", .tax, ⟨"a", "b", "c"⟩, ⟨none, none, none, none⟩, ⟨"k", "i", "d", none⟩, []⟩

def variedText : String :=
  " [2,\"\\u0054\",\x7b\"tax\":null\x7d," ++
    "\x7b\"mediaType\":\"c\",\"x\":[],\"path\":\"a\",\"sha256\":\"b\"\x7d," ++
    "\x7b\x7d,[\"k\",\"i\",\"d\",null],[]]"

/-- Lists for records, an escape, an object for the domain, members in another order with one more
among them, and no member where all may be left out. -/
theorem spelledBy_variedText : varied.SpelledBy variedText := by
  have hspace : IsBlank [' '] := by simp [IsBlank, isSpace]
  have hletter : Piece.Written (.unit 0x54) "\\u0054".toList :=
    .unit ⟨by decide, .inl rfl⟩ ⟨by decide, .inl rfl⟩ ⟨by decide, .inl rfl⟩ ⟨by decide, .inl rfl⟩
  have hid : Quotes "T" "\"\\u0054\"".toList :=
    ⟨_, _, .cons hletter .nil, Names.unit (c := 'T') .nil, by decide⟩
  have hdomain : Shape.domain.Spells Domain.tax "\x7b\"tax\":null\x7d".toList :=
    .inr ⟨_, _, .mk (quotes_quote "tax") isBlank_nil isBlank_nil, .last isBlank_nil isBlank_nil,
      by decide⟩
  have hartifact : Artifact.shape.Spells ("a", "b", "c", ())
      "\x7b\"mediaType\":\"c\",\"x\":[],\"path\":\"a\",\"sha256\":\"b\"\x7d".toList := by
    have hextra : WellFormed .value ['[', ']'] := .array (.none isBlank_nil) (by simp)
    refine .inl ⟨[("mediaType", quote ['c']), ("x", ['[', ']']), ("path", quote ['a']),
      ("sha256", quote ['b'])], _, _, forall₂_compactMember _, separated_intercalate _,
      ⟨.inl ⟨_, rfl, quotes_quote "a"⟩, .inl ⟨_, rfl, quotes_quote "b"⟩,
        .inl ⟨_, rfl, quotes_quote "c"⟩, trivial⟩, ?_, by decide⟩
    simpa [Artifact.fields, Fields.names] using hextra
  have hcoverage : Coverage.shape.Spells (none, none, none, none, ()) "\x7b\x7d".toList :=
    .inl ⟨[], [], [], .nil, .none isBlank_nil,
      ⟨.inr ⟨rfl, rfl⟩, .inr ⟨rfl, rfl⟩, .inr ⟨rfl, rfl⟩, .inr ⟨rfl, rfl⟩, trivial⟩, by simp,
      by decide⟩
  have hsource : Source.shape.Spells ("k", "i", "d", none, ())
      "[\"k\",\"i\",\"d\",null]".toList :=
    .inr ⟨_, _, ⟨_, _, rfl, quotes_quote "k", _, _, rfl, quotes_quote "i", _, _, rfl,
      quotes_quote "d", _, _, rfl, rfl, rfl⟩, separated_intercalate _, by decide⟩
  have happrovals : Approval.shape.list.Spells [] "[]".toList :=
    ⟨[], [], .nil, .none isBlank_nil, by decide⟩
  have hfields : fields.InOrder varied.toValues _ :=
    ⟨_, _, rfl, rfl, _, _, rfl, hid, _, _, rfl, hdomain, _, _, rfl, hartifact, _, _, rfl,
      hcoverage, _, _, rfl, hsource, _, _, rfl, happrovals, rfl⟩
  exact ⟨[' '], _, [], hspace, isBlank_nil, .inr ⟨_, _, hfields, separated_intercalate _, rfl⟩,
    by decide⟩

theorem reformat_variedText : varied.SpelledBy variedText ∧
    read variedText = .ok varied ∧ reformat variedText = .ok varied.render :=
  ⟨spelledBy_variedText, reformat_of_spelledBy spelledBy_variedText⟩

end Record

end Sidecar
