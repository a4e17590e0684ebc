import Sidecar.Proofs.Relative

/-! Paths relative to a root, in bytes. The way down is named as it is shown: its names stay names,
but only where they are text does the relative path lead back and tell the path from others. -/

namespace Sidecar

namespace Text

/-! ### What is shown in ASCII -/

/-- However the character goes on, it comes to one beyond ASCII. -/
inductive Unfinished.IsLong : Unfinished → Prop
  | last {code least greatest : Nat}
    (h : ∀ n, least ≤ n → n ≤ greatest →
      0x80 ≤ code * 64 + (n - 0x80) ∧ (code * 64 + (n - 0x80)).isValidChar) :
    IsLong ⟨code, 1, least, greatest⟩
  | inner {code missing least greatest : Nat}
    (h : ∀ n, least ≤ n → n ≤ greatest →
      IsLong ⟨code * 64 + (n - 0x80), missing + 1, 0x80, 0xbf⟩) :
    IsLong ⟨code, missing + 2, least, greatest⟩

/-- The bounds on the second byte keep out surrogates and all beyond the last character. -/
theorem Unfinished.isLong_of_ofFirst? {b : Nat} {u : Unfinished} (h : ofFirst? b = some u) :
    u.IsLong := by
  unfold ofFirst? at h
  split at h
  next hb =>
    rw [← Option.some.inj h]
    refine .last fun n hleast hgreatest => ?_
    simp only [Nat.isValidChar]
    omega
  next =>
    split at h
    next hb =>
      rw [← Option.some.inj h]
      refine .inner fun n hleast hgreatest => .last fun m hm hm' => ?_
      simp only [Nat.isValidChar]
      split_ifs at hleast hgreatest <;> omega
    next =>
      split at h
      next hb =>
        rw [← Option.some.inj h]
        refine .inner fun n hleast hgreatest => .inner fun m hm hm' => .last fun l hl hl' => ?_
        simp only [Nat.isValidChar]
        split_ifs at hleast hgreatest <;> omega
      next => contradiction

theorem replacement_beyond : 0x80 ≤ replacement.toNat := by
  decide

theorem toNat_ofNat_of_isValidChar {n : Nat} (h : n.isValidChar) : (Char.ofNat n).toNat = n := by
  rw [Char.toNat_ofNat, if_pos h]

/-- A character of ASCII that a byte settles is the byte, and one that it opens is beyond ASCII. -/
theorem decodeFirst_spec (b : Nat) :
    (∀ c ∈ (decodeFirst b).1, c.toNat < 0x80 → c = Char.ofNat b) ∧
      ∀ u ∈ (decodeFirst b).2, u.IsLong := by
  unfold decodeFirst
  split
  next => simp
  next =>
    split
    next u hu => simpa using Unfinished.isLong_of_ofFirst? hu
    next => simpa using fun hc => absurd replacement_beyond (Nat.not_le.mpr hc)

theorem decodeNext_spec {u : Option Unfinished} (hu : ∀ v ∈ u, v.IsLong) (b : Nat) :
    (∀ c ∈ (decodeNext u b).1, c.toNat < 0x80 → c = Char.ofNat b) ∧
      ∀ v ∈ (decodeNext u b).2, v.IsLong := by
  cases u with
  | none => exact decodeFirst_spec b
  | some v =>
    rw [decodeNext]
    by_cases hb : v.least ≤ b ∧ b ≤ v.greatest
    · rw [if_pos hb]
      cases hu v rfl with
      | last h =>
        obtain ⟨hcode, hvalid⟩ := h b hb.1 hb.2
        simpa [toNat_ofNat_of_isValidChar hvalid] using fun hc => absurd hcode (Nat.not_le.mpr hc)
      | inner h => simpa using h b hb.1 hb.2
    · have hfirst := decodeFirst_spec b
      rw [if_neg hb]
      refine ⟨?_, hfirst.2⟩
      intro c hc hascii
      cases hc with
      | head => exact absurd replacement_beyond (Nat.not_le.mpr hascii)
      | tail _ hc => exact hfirst.1 c hc hascii

/-- A character of ASCII that is shown is a byte. -/
theorem exists_byte_of_mem_decodeFrom {u : Option Unfinished} (hu : ∀ v ∈ u, v.IsLong)
    {bytes : List UInt8} {c : Char} (h : c ∈ decodeFrom u bytes) (hc : c.toNat < 0x80) :
    ∃ b ∈ bytes, c = Char.ofNat b.toNat := by
  induction bytes generalizing u with
  | nil =>
    unfold decodeFrom at h
    split at h
    · rw [List.mem_singleton.mp h] at hc
      exact absurd replacement_beyond (Nat.not_le.mpr hc)
    · contradiction
  | cons b bytes ih =>
    have hnext := decodeNext_spec hu b.toNat
    rw [decodeFrom, List.mem_append] at h
    cases h with
    | inl hfirst => exact ⟨b, List.mem_cons_self, hnext.1 c hfirst hc⟩
    | inr hrest =>
      obtain ⟨d, hd, hcd⟩ := ih hnext.2 hrest
      exact ⟨d, List.mem_cons_of_mem b hd, hcd⟩

theorem Unfinished.IsLong.exists_mem {u : Unfinished} (h : u.IsLong) (bytes : List UInt8) :
    ∃ c ∈ decodeFrom (some u) bytes, 0x80 ≤ c.toNat := by
  induction bytes generalizing u with
  | nil => exact ⟨replacement, List.mem_singleton_self _, replacement_beyond⟩
  | cons b bytes ih =>
    rw [decodeFrom, decodeNext]
    by_cases hb : u.least ≤ b.toNat ∧ b.toNat ≤ u.greatest
    · rw [if_pos hb]
      cases h with
      | last h =>
        obtain ⟨hcode, hvalid⟩ := h b.toNat hb.1 hb.2
        refine ⟨_, List.mem_append_left _ (List.mem_singleton_self _), ?_⟩
        rwa [toNat_ofNat_of_isValidChar hvalid]
      | inner h => exact ih (h b.toNat hb.1 hb.2)
    · rw [if_neg hb]
      exact ⟨replacement, List.mem_append_left _ List.mem_cons_self, replacement_beyond⟩

/-- What is shown in ASCII alone is what the bytes spell. -/
theorem decodeFrom_eq_map {bytes : List UInt8} (h : ∀ c ∈ decodeFrom none bytes, c.toNat < 0x80) :
    decodeFrom none bytes = bytes.map fun b => Char.ofNat b.toNat := by
  induction bytes with
  | nil => rfl
  | cons b bytes ih =>
    rw [decodeFrom, decodeNext, decodeFirst] at h ⊢
    by_cases hb : b.toNat < 0x80
    · rw [if_pos hb] at h ⊢
      rw [ih fun c hc => h c (List.mem_append_right _ hc)]
      rfl
    · rw [if_neg hb] at h
      exfalso
      cases hfirst : Unfinished.ofFirst? b.toNat with
      | none =>
        rw [hfirst] at h
        exact absurd replacement_beyond (Nat.not_le.mpr (h _ List.mem_cons_self))
      | some u =>
        rw [hfirst] at h
        obtain ⟨c, hc, hlong⟩ := (Unfinished.isLong_of_ofFirst? hfirst).exists_mem bytes
        exact absurd hlong (Nat.not_le.mpr (h c hc))

end Text

namespace BytePath

/-- A name that is shown is a name still. -/
theorem decode_name {n : List UInt8}
    (h : spell n ≠ "" ∧ spell n ≠ "." ∧ spell n ≠ ".." ∧ '/' ∉ (spell n).toList) :
    Text.decode n ≠ "" ∧ Text.decode n ≠ "." ∧ Text.decode n ≠ ".." ∧
      '/' ∉ (Text.decode n).toList := by
  have heq {s : String} (hs : ∀ c ∈ s.toList, c.toNat < 0x80) (hn : Text.decode n = s) :
      spell n = s := by
    rw [← hn, Text.decode, String.toList_ofList] at hs
    rw [← hn, Text.decode, Text.decodeFrom_eq_map hs, spell]
  obtain ⟨hempty, hdot, hup, hslash⟩ := h
  refine ⟨fun hn => hempty (heq (by simp) hn), fun hn => hdot (heq (by simp) hn),
    fun hn => hup (heq (by simp) hn), fun hn => hslash ?_⟩
  rw [Text.decode, String.toList_ofList] at hn
  obtain ⟨b, hb, hc⟩ := Text.exists_byte_of_mem_decodeFrom (by simp) hn (by decide)
  rw [spell, String.toList_ofList, hc]
  exact List.mem_map_of_mem hb

/-! ### The way down -/

/-- The path has the names behind the parts of the root, be they text or not. -/
def LeadsDown (root path : BytePath) (names : List (List UInt8)) : Prop :=
  Sidecar.LeadsDown root.spelled path.spelled (names.map spell)

/-- The way down has names that are all text. -/
def NamedInText (root path : BytePath) : Prop :=
  ∃ names : List String, root.LeadsDown path (names.map Text.utf8)

section

variable {root path other : BytePath} {names otherNames : List (List UInt8)} {relPath : String}

theorem LeadsDown.spelled_name (h : root.LeadsDown path names) :
    ∀ n ∈ names, spell n ≠ "" ∧ spell n ≠ "." ∧ spell n ≠ ".." ∧ '/' ∉ (spell n).toList :=
  fun n hn => Sidecar.LeadsDown.name h (spell n) (List.mem_map_of_mem hn)

theorem LeadsDown.name (h : root.LeadsDown path names) :
    ∀ n ∈ names, n ≠ [] ∧ n ≠ [0x2e] ∧ n ≠ [0x2e, 0x2e] ∧ slash ∉ n := by
  intro n hn
  obtain ⟨hempty, hdot, hup, hslash⟩ := h.spelled_name n hn
  refine ⟨?_, ?_, ?_, ?_⟩
  · rintro rfl
    exact hempty rfl
  · rintro rfl
    exact hdot (by decide)
  · rintro rfl
    exact hup (by decide)
  · intro hmem
    rw [spell, String.toList_ofList] at hslash
    exact hslash (List.mem_map_of_mem (f := fun b => Char.ofNat b.toNat) hmem)

theorem LeadsDown.decode_name (h : root.LeadsDown path names) :
    ∀ n ∈ names.map Text.decode, n ≠ "" ∧ n ≠ "." ∧ n ≠ ".." ∧ '/' ∉ n.toList := by
  intro n hn
  obtain ⟨bytes, hbytes, rfl⟩ := List.mem_map.mp hn
  exact BytePath.decode_name (h.spelled_name bytes hbytes)

/-- Names in the spelling of a path are spelled names. -/
theorem exists_leadsDown {spelledNames : List String}
    (h : Sidecar.LeadsDown root.spelled path.spelled spelledNames) :
    ∃ names, root.LeadsDown path names ∧ names.map spell = spelledNames := by
  have hbyte : ∀ c ∈ path.spelled.text.toList, Char.ofNat (UInt8.ofNat c.toNat).toNat = c := by
    intro c hc
    rw [spelled, spell, String.toList_ofList] at hc
    obtain ⟨b, -, rfl⟩ := List.mem_map.mp hc
    rw [toNat_ofNat_toNat, UInt8.ofNat_toNat]
  have hname : ∀ n ∈ spelledNames, spell (unspell n) = n := by
    intro n hn
    obtain ⟨hsegment, -⟩ := Path.mem_segments_of_mem_parts (h.mem_parts n hn)
    rw [spell, unspell, List.map_map, ← String.toList_inj, String.toList_ofList]
    exact (List.map_congr_left fun c hc =>
      hbyte c (Text.mem_toList_of_mem_piece hsegment hc)).trans (List.map_id n.toList)
  have heq : (spelledNames.map unspell).map spell = spelledNames := by
    rw [List.map_map]
    exact (List.map_congr_left hname).trans (List.map_id spelledNames)
  refine ⟨spelledNames.map unspell, ?_, heq⟩
  rwa [LeadsDown, heq]

theorem relativePath_eq_ok_iff : relativePath root path = .ok relPath ↔
    ∃ names, root.LeadsDown path names ∧ relPath = "/".intercalate (names.map Text.decode) := by
  have hshown (names : List (List UInt8)) :
      (names.map spell).map (fun n => Text.decode (unspell n)) = names.map Text.decode := by
    rw [List.map_map]
    exact List.map_congr_left fun n _ => congrArg Text.decode (unspell_spell n)
  unfold relativePath
  constructor
  · intro h
    split at h
    next spelledNames hbelow =>
      obtain ⟨names, hnames, rfl⟩ := exists_leadsDown (bind_namesOf?_eq_some_iff.mp hbelow)
      rw [hshown] at h
      exact ⟨names, hnames, (Except.ok.inj h).symm⟩
    next => simp at h
  · rintro ⟨names, hnames, rfl⟩
    rw [bind_namesOf?_eq_some_iff.mpr hnames]
    dsimp only
    rw [hshown]

theorem eq_outsideRoot_of_relativePath {failure : Failure}
    (h : relativePath root path = .error failure) :
    failure = .outsideRoot path.shown root.shown := by
  unfold relativePath at h
  split at h
  · simp at h
  · exact (Except.error.inj h).symm

theorem relativePath_of_same (hsame : path.Same other) (h : relativePath root path = .ok relPath) :
    relativePath root other = .ok relPath := by
  rw [relativePath_eq_ok_iff] at h ⊢
  simpa only [LeadsDown, Sidecar.LeadsDown,
    show path.spelled.parts = other.spelled.parts from hsame] using h

/-! ### The way back -/

theorem ofNat_toNat_eq_slash_iff {b : UInt8} : Char.ofNat b.toNat = '/' ↔ b = slash := by
  constructor
  · intro h
    have hnat := congrArg Char.toNat h
    rw [toNat_ofNat_toNat] at hnat
    exact UInt8.toNat_inj.mp hnat
  · rintro rfl
    rfl

theorem spelled_join (p q : BytePath) : (p.join q).spelled = p.spelled.join (spell q.bytes) := by
  have hhead : (spell q.bytes).toList.head? = some '/' ↔ q.bytes.head? = some slash := by
    simp [spell, List.head?_map, ofNat_toNat_eq_slash_iff]
  have hlast : (spell p.bytes).toList.getLast? = some '/' ↔ p.bytes.getLast? = some slash := by
    simp [spell, List.getLast?_map, ofNat_toNat_eq_slash_iff]
  have hempty : spell p.bytes = "" ↔ p.bytes = [] := spell_injective.eq_iff' rfl
  rw [join, Path.join, Path.child, spelled, spelled, if_congr hhead rfl rfl,
    if_congr (or_congr hempty hlast) rfl rfl]
  split_ifs
  · rfl
  · rw [spell_append]
  · rw [List.append_cons, spell_append, spell_append, show spell [slash] = "/" by decide]

theorem spellText_intercalate {names : List String} :
    spellText ("/".intercalate names) = "/".intercalate (names.map spellText) := by
  have hslash : spellText "/" = "/" := by decide
  induction names with
  | nil => decide
  | cons n names ih =>
    by_cases hnil : names = []
    · simp [hnil]
    · rw [String.intercalate_cons_of_ne_nil hnil, List.map_cons,
        String.intercalate_cons_of_ne_nil (by simpa using hnil), spellText_append,
        spellText_append, hslash, ih]

theorem text_spelled_ne (h : root.bytes ≠ []) : root.spelled.text ≠ "" :=
  fun hempty => h (spell_injective hempty)

/-- Names of texts behind a root are found there when they are read as a path. -/
theorem leadsDown_join {texts : List String} (hroot : root.bytes ≠ [])
    (h : ∀ n ∈ texts, n ≠ "" ∧ n ≠ "." ∧ n ≠ ".." ∧ '/' ∉ n.toList) :
    root.LeadsDown (root.join (⟨"/".intercalate texts⟩ : Path)) (texts.map Text.utf8) := by
  have hname : ∀ n ∈ texts.map spellText, n ≠ "" ∧ n ≠ "." ∧ n ≠ ".." ∧ '/' ∉ n.toList := by
    intro n hn
    obtain ⟨text, htext, rfl⟩ := List.mem_map.mp hn
    obtain ⟨hempty, hdot, hup, hslash⟩ := h text htext
    obtain ⟨hempty', hdot', hup'⟩ := spellText_eq_iff text
    refine ⟨mt hempty'.mp hempty, mt hdot'.mp hdot, mt hup'.mp hup, ?_⟩
    rw [toList_spellText, List.mem_flatMap]
    rintro ⟨c, hc, hmem⟩
    exact hslash (eq_of_mem_spellChar (by decide) hmem ▸ hc)
  have hjoin : (root.join (⟨"/".intercalate texts⟩ : Path)).spelled =
      root.spelled.join ("/".intercalate (texts.map spellText)) := by
    rw [spelled_join, ← spellText_intercalate]
    rfl
  rw [LeadsDown, hjoin, List.map_map]
  exact Sidecar.leadsDown_join (text_spelled_ne hroot) hname

theorem LeadsDown.same_iff (h : root.LeadsDown path names)
    (hother : root.LeadsDown other otherNames) (hroot : root.bytes ≠ []) :
    path.Same other ↔ names = otherNames := by
  rw [← List.map_inj_right fun _ _ heq => spell_injective heq]
  exact Sidecar.LeadsDown.same_iff h hother (text_spelled_ne hroot)

/-- The relative path leads back just where the names are text. -/
theorem join_same_iff (hroot : root.bytes ≠ []) (h : relativePath root path = .ok relPath) :
    (root.join (⟨relPath⟩ : Path)).Same path ↔ root.NamedInText path := by
  obtain ⟨names, hnames, rfl⟩ := relativePath_eq_ok_iff.mp h
  rw [(leadsDown_join hroot hnames.decode_name).same_iff hnames hroot]
  constructor
  · intro heq
    exact ⟨names.map Text.decode, by rwa [heq]⟩
  · rintro ⟨texts, htexts⟩
    have hshown : (texts.map Text.utf8).map Text.decode = texts := by
      rw [List.map_map]
      exact List.map_id'' Text.decode_utf8 texts
    rw [(hnames.same_iff htexts hroot).mp (Eq.refl path.spelled.parts), hshown]

end

/-- What the paths relative to a root tell of the paths under it. -/
structure RelativePathLaws (root : BytePath) : Prop where
  eq_ok_iff : ∀ path relPath, relativePath root path = .ok relPath ↔
    ∃ names, root.LeadsDown path names ∧ relPath = "/".intercalate (names.map Text.decode)
  name : ∀ path names, root.LeadsDown path names →
    ∀ n ∈ names, n ≠ [] ∧ n ≠ [0x2e] ∧ n ≠ [0x2e, 0x2e] ∧ slash ∉ n
  isClean : ∀ path relPath, relativePath root path = .ok relPath → IsClean relPath
  join_same_iff : root.bytes ≠ [] → ∀ path relPath, relativePath root path = .ok relPath →
    ((root.join (⟨relPath⟩ : Path)).Same path ↔ root.NamedInText path)
  eq_of_same : ∀ path other relPath otherRelPath,
    relativePath root path = .ok relPath → relativePath root other = .ok otherRelPath →
      path.Same other → relPath = otherRelPath
  eq_iff_same : root.bytes ≠ [] → ∀ path other relPath otherRelPath,
    relativePath root path = .ok relPath → relativePath root other = .ok otherRelPath →
      root.NamedInText path → root.NamedInText other →
        (relPath = otherRelPath ↔ path.Same other)
  eq_outsideRoot : ∀ path failure, relativePath root path = .error failure →
    failure = .outsideRoot path.shown root.shown

theorem relativePath_laws (root : BytePath) : RelativePathLaws root := by
  have heq (path other relPath otherRelPath) (hpath : relativePath root path = .ok relPath)
      (hother : relativePath root other = .ok otherRelPath) (hsame : path.Same other) :
      relPath = otherRelPath :=
    Except.ok.inj ((relativePath_of_same hsame hpath).symm.trans hother)
  constructor
  · exact fun path relPath => relativePath_eq_ok_iff
  · exact fun path names h => h.name
  · intro path relPath h
    obtain ⟨names, hnames, rfl⟩ := relativePath_eq_ok_iff.mp h
    exact isClean_intercalate hnames.decode_name
  · exact fun hroot path relPath h => join_same_iff hroot h
  · exact heq
  · intro hroot path other relPath otherRelPath hpath hother htext hotherText
    refine ⟨?_, heq path other relPath otherRelPath hpath hother⟩
    rintro rfl
    exact ((join_same_iff hroot hpath).mpr htext).symm.trans
      ((join_same_iff hroot hother).mpr hotherText)
  · exact fun path failure => eq_outsideRoot_of_relativePath

/-- Under `/r` the names of the bytes FF and FE are shown alike, and neither is what is shown. -/
theorem not_relativePath_injective :
    relativePath (⟨"/r"⟩ : Path) ⟨Text.utf8 "/r/" ++ [0xff]⟩ = .ok "\ufffd" ∧
      relativePath (⟨"/r"⟩ : Path) ⟨Text.utf8 "/r/" ++ [0xfe]⟩ = .ok "\ufffd" ∧
      ¬Same ⟨Text.utf8 "/r/" ++ [0xff]⟩ ⟨Text.utf8 "/r/" ++ [0xfe]⟩ ∧
      ¬Same (join (⟨"/r"⟩ : Path) (⟨"\ufffd"⟩ : Path)) ⟨Text.utf8 "/r/" ++ [0xff]⟩ :=
  ⟨by cbv, by cbv, by decide, by decide⟩

end BytePath

end Sidecar
