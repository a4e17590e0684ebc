import Sidecar.Proofs.Language
import Sidecar.Proofs.Lookup

/-! What a walk through the directories comes upon: one equation for each kind of component, and the
steps that lead to a path that was found. -/

namespace Sidecar.Glob

@[simp] theorem Place.path_at (t : FileTree) (p : Path) : (Place.at t p).path = p :=
  rfl

/-- The place of an entry in the directory at another place. -/
def Place.below (t : FileTree) (place : Place) (name : String) (entry : Entry) : Place :=
  ⟨place.path.child name, leadsToDirectory t (place.path.child name) entry⟩

/-- Whether a component without metacharacters leads on. -/
def Place.leadsTo (t : FileTree) (place : Place) (name : String) : Bool :=
  if name = "." ∨ name = ".." then place.isDirectory else isThere t (place.path.child name)

/-- What is found through one entry of a directory. -/
def expandInto (t : FileTree) (onlyDirectories : Bool) (place : Place) (c : Pattern)
    (rest : List Pattern) (name : String) (entry : Entry) : List (Except Unlistable Path) :=
  let next := place.below t name entry
  if c.isRecursive then
    (match rest with
    | [] => if next.isDirectory then expand t onlyDirectories next [] else []
    | d :: more => if d.matches name then expand t onlyDirectories next more else []) ++
    (if next.isDirectory then expand t onlyDirectories next (c :: rest) else [])
  else if c.matches name then expand t onlyDirectories next rest
  else []

/-- What is found through `.` or `..` by a wildcard that asks for a dot. -/
def expandDots (t : FileTree) (onlyDirectories : Bool) (place : Place) (c : Pattern)
    (rest : List Pattern) (dots : String) : List (Except Unlistable Path) :=
  if c.opensWithDot && c.matches dots then
    expand t onlyDirectories (.at t (place.path.child dots)) rest
  else []

section

variable {t : FileTree} {onlyDirectories : Bool} {place : Place} {c : Pattern}
  {rest : List Pattern}

theorem expand_nil : expand t onlyDirectories place [] =
    if onlyDirectories && !place.isDirectory then [] else [.ok place.path] := by
  rw [expand]

theorem expand_literal {name : String} (h : c.literal? = some name) :
    expand t onlyDirectories place (c :: rest) =
      if place.leadsTo t name then expand t onlyDirectories (.at t (place.path.child name)) rest
      else [] := by
  rw [expand, h, Place.leadsTo]
  by_cases hdot : name = "."
  · simp [hdot]
  · by_cases hup : name = ".."
    · simp [hup]
    · simp [hdot, hup]

theorem expand_of_not_isDirectory (h : c.literal? = none) (hdir : place.isDirectory = false) :
    expand t onlyDirectories place (c :: rest) = [] := by
  rw [expand, h]
  simp [hdir]

theorem expand_of_unlistable {e : OsError} (h : c.literal? = none)
    (hdir : place.isDirectory = true) (hl : t.list place.path = .error e) :
    expand t onlyDirectories place (c :: rest) = [.error ⟨place.path, e⟩] := by
  rw [expand, h]
  simp only [hdir, Bool.not_true, Bool.false_eq_true, if_false]
  split
  next e' he => rw [hl] at he; rw [Except.error.inj he]
  next found hf => rw [hl] at hf; contradiction

theorem expand_wildcard {found : List (String × Entry)} (h : c.literal? = none)
    (hdir : place.isDirectory = true) (hl : t.list place.path = .ok found) :
    expand t onlyDirectories place (c :: rest) =
      expandDots t onlyDirectories place c rest ".." ++
        expandDots t onlyDirectories place c rest "." ++
        found.flatMap fun x => expandInto t onlyDirectories place c rest x.1 x.2 := by
  rw [expand, h]
  simp only [hdir, Bool.not_true, Bool.false_eq_true, if_false]
  split
  next e he => rw [hl] at he; contradiction
  next found' hf =>
    obtain rfl := Except.ok.inj (hl.symm.trans hf)
    congr 1
    conv => rhs; rw [← List.attach_map_subtype_val found, List.flatMap_map]
    rfl

theorem mem_expandDots_iff {dots : String} {r : Except Unlistable Path} :
    r ∈ expandDots t onlyDirectories place c rest dots ↔
      c.opensWithDot = true ∧ c.matches dots = true ∧
        r ∈ expand t onlyDirectories (.at t (place.path.child dots)) rest := by
  rw [expandDots, List.mem_ite_nil_right, Bool.and_eq_true, and_assoc]

/-- An entry is met by the component itself, or below a `**` by the next one, or as the last name,
or it is gone through with the `**` kept. -/
theorem mem_expandInto {name : String} {entry : Entry} {r : Except Unlistable Path}
    (h : r ∈ expandInto t onlyDirectories place c rest name entry) :
    (c.isRecursive = false ∧ c.matches name = true ∧
      r ∈ expand t onlyDirectories (place.below t name entry) rest) ∨
    c.isRecursive = true ∧
      ((rest = [] ∧ (place.below t name entry).isDirectory = true ∧
        r ∈ expand t onlyDirectories (place.below t name entry) []) ∨
      (∃ d more, rest = d :: more ∧ d.matches name = true ∧
        r ∈ expand t onlyDirectories (place.below t name entry) more) ∨
      r ∈ expand t onlyDirectories (place.below t name entry) (c :: rest)) := by
  unfold expandInto at h
  cases hrec : c.isRecursive with
  | false =>
    rw [hrec, if_neg (by simp), List.mem_ite_nil_right] at h
    exact .inl ⟨rfl, h⟩
  | true =>
    rw [hrec, if_pos rfl, List.mem_append] at h
    refine .inr ⟨rfl, ?_⟩
    cases h with
    | inl h =>
      cases rest with
      | nil => exact .inl ⟨rfl, List.mem_ite_nil_right.mp h⟩
      | cons d more => exact .inr (.inl ⟨d, more, rfl, List.mem_ite_nil_right.mp h⟩)
    | inr h => exact .inr (.inr (List.mem_ite_nil_right.mp h).2)

/-- What is found through a component was found behind one of the steps it allows. -/
theorem mem_expand_cons {r : Except Unlistable Path}
    (h : r ∈ expand t onlyDirectories place (c :: rest)) :
    (∃ name, c.literal? = some name ∧ place.leadsTo t name = true ∧
      r ∈ expand t onlyDirectories (.at t (place.path.child name)) rest) ∨
    c.literal? = none ∧
      ((∃ e, r = .error ⟨place.path, e⟩) ∨
      (∃ name, (name = "." ∨ name = "..") ∧ c.opensWithDot = true ∧ c.matches name = true ∧
        r ∈ expand t onlyDirectories (.at t (place.path.child name)) rest) ∨
      ∃ found name entry, t.list place.path = .ok found ∧ (name, entry) ∈ found ∧
        r ∈ expandInto t onlyDirectories place c rest name entry) := by
  cases hlit : c.literal? with
  | some name =>
    rw [expand_literal hlit] at h
    split at h
    next hleads => exact .inl ⟨name, rfl, hleads, h⟩
    next => simp at h
  | none =>
    refine .inr ⟨rfl, ?_⟩
    cases hdir : place.isDirectory with
    | false =>
      rw [expand_of_not_isDirectory hlit hdir] at h
      simp at h
    | true =>
      cases hl : t.list place.path with
      | error e =>
        rw [expand_of_unlistable hlit hdir hl] at h
        exact .inl ⟨e, List.mem_singleton.mp h⟩
      | ok found =>
        rw [expand_wildcard hlit hdir hl, List.mem_append, List.mem_append] at h
        cases h with
        | inl h =>
          cases h with
          | inl h => exact .inr (.inl ⟨"..", .inr rfl, mem_expandDots_iff.mp h⟩)
          | inr h => exact .inr (.inl ⟨".", .inl rfl, mem_expandDots_iff.mp h⟩)
        | inr h =>
          have ⟨⟨name, entry⟩, hm, h⟩ := List.mem_flatMap.mp h
          exact .inr (.inr ⟨found, name, entry, rfl, hm, h⟩)

end

/-- A walk by components from a place to another. -/
inductive Walks (t : FileTree) : Place → List Pattern → Place → Prop where
  | done {place} : Walks t place [] place
  | literal {place last : Place} {c rest name} : c.literal? = some name →
      place.leadsTo t name = true → Walks t (.at t (place.path.child name)) rest last →
      Walks t place (c :: rest) last
  | dots {place last : Place} {c rest name} : name = "." ∨ name = ".." → c.literal? = none →
      c.opensWithDot = true → c.matches name = true →
      Walks t (.at t (place.path.child name)) rest last → Walks t place (c :: rest) last
  | name {place last : Place} {c rest found name entry} : c.literal? = none →
      t.list place.path = .ok found → (name, entry) ∈ found → c.isRecursive = false →
      c.matches name = true → Walks t (place.below t name entry) rest last →
      Walks t place (c :: rest) last
  | skip {place last : Place} {c d rest found name entry} : c.isRecursive = true →
      t.list place.path = .ok found → (name, entry) ∈ found → d.matches name = true →
      Walks t (place.below t name entry) rest last → Walks t place (c :: d :: rest) last
  | deeper {place last : Place} {c rest found name entry} : c.isRecursive = true →
      t.list place.path = .ok found → (name, entry) ∈ found →
      Walks t (place.below t name entry) (c :: rest) last → Walks t place (c :: rest) last
  | last {place : Place} {c found name entry} : c.isRecursive = true →
      t.list place.path = .ok found → (name, entry) ∈ found →
      (place.below t name entry).isDirectory = true →
      Walks t place [c] (place.below t name entry)

/-- What an expansion finds was walked to. -/
theorem walks_of_mem_expand (t : FileTree) (onlyDirectories : Bool) (place : Place)
    (comps : List Pattern) {p : Path} (h : .ok p ∈ expand t onlyDirectories place comps) :
    ∃ last, Walks t place comps last ∧ last.path = p := by
  match comps with
  | [] =>
    rw [expand_nil, List.mem_ite_nil_left] at h
    exact ⟨place, .done, (Except.ok.inj (List.mem_singleton.mp h.2)).symm⟩
  | c :: rest =>
    rcases mem_expand_cons h with hlit | ⟨hlit, hwild⟩
    · have ⟨name, hname, hleads, hmem⟩ := hlit
      have := room_child_le place.path name
      have ⟨last, hw, hp⟩ := walks_of_mem_expand t onlyDirectories _ rest hmem
      exact ⟨last, .literal hname hleads hw, hp⟩
    · rcases hwild with herror | hdots | hlisted
      · have ⟨e, he⟩ := herror
        contradiction
      · have ⟨name, hname, hopens, hc, hmem⟩ := hdots
        have := room_child_le place.path name
        have ⟨last, hw, hp⟩ := walks_of_mem_expand t onlyDirectories _ rest hmem
        exact ⟨last, .dots hname hlit hopens hc hw, hp⟩
      · have ⟨found, name, entry, hl, hm, hmem⟩ := hlisted
        have := room_child_lt hl hm
        rcases mem_expandInto hmem with ⟨hr, hc, hmem⟩ | ⟨hr, hlast | hskip | hmem⟩
        · have ⟨last, hw, hp⟩ := walks_of_mem_expand t onlyDirectories _ rest hmem
          exact ⟨last, .name hlit hl hm hr hc hw, hp⟩
        · have ⟨hnil, hnext, hfound⟩ := hlast
          subst hnil
          rw [expand_nil, List.mem_ite_nil_left] at hfound
          exact ⟨_, .last hr hl hm hnext, (Except.ok.inj (List.mem_singleton.mp hfound.2)).symm⟩
        · have ⟨d, more, hcons, hd, hfound⟩ := hskip
          subst hcons
          have ⟨last, hw, hp⟩ := walks_of_mem_expand t onlyDirectories _ more hfound
          exact ⟨last, .skip hr hl hm hd hw, hp⟩
        · have ⟨last, hw, hp⟩ := walks_of_mem_expand t onlyDirectories _ (c :: rest) hmem
          exact ⟨last, .deeper hr hl hm hw, hp⟩
  termination_by (room place.path, comps.length)
  decreasing_by
    all_goals
      simp only [Place.at, Place.below, Prod.lex_def, List.length_cons]
      omega

/-- Where no link is on the way, something stands at a path. -/
def Stands (t : FileTree) (p : Path) : Prop :=
  ∀ loc, p.Spells loc → t.LinkFreeAlong loc → (t.get? loc).isSome = true

theorem get?_of_isThere {t : FileTree} {p : Path} (h : isThere t p = true) : Stands t p := by
  intro loc hp hfree
  have hfind {ending : Ending} (he : (t.find ending p).isOk = true) :
      (t.get? loc).isSome = true := by
    cases hf : t.find ending p with
    | error => rw [hf] at he; contradiction
    | ok e =>
      have ⟨place, hl, hg⟩ := FileTree.find_eq_ok hf
      rw [← FileTree.locate_location hp hfree hl, hg]
      rfl
  rw [isThere, Bool.or_eq_true] at h
  cases h with
  | inl h => exact hfind h
  | inr h => exact hfind h

theorem name_of_list {t : FileTree} {p : Path} {found : List (String × Entry)}
    (h : t.list p = .ok found) {name : String} {e : Entry} (hm : (name, e) ∈ found) :
    name ≠ "" ∧ name ≠ "." ∧ name ≠ ".." ∧ '/' ∉ name.toList :=
  have ⟨h1, h2, h3, h4, _⟩ := FileTree.isEntryName_of_list h hm
  ⟨h1, h2, h3, h4⟩

theorem stands_child_of_list {t : FileTree} {p : Path} {found : List (String × Entry)}
    (hp : p.text ≠ "") (h : t.list p = .ok found) {name : String} {e : Entry}
    (hm : (name, e) ∈ found) : Stands t (p.child name) := by
  intro loc hloc hfree
  have ⟨above, hcons, habove⟩ := Path.Spells.of_child hp (name_of_list h hm) hloc
  obtain ⟨place, hl, _, rfl⟩ := FileTree.list_eq_ok h
  have hplace : place = above :=
    FileTree.locate_location habove
      (fun l target hs => hfree l target (hs.trans (hcons ▸ List.suffix_cons name above))) hl
  have ⟨n, _, hn⟩ := List.mem_filterMap.mp hm
  have ⟨e', he', hpair⟩ := Option.map_eq_some_iff.mp hn
  rw [hcons, ← hplace, ← (Prod.mk.inj hpair).1, he']
  rfl

theorem stands_child_of_dots {t : FileTree} {p : Path} (hp : p.text ≠ "") (h : Stands t p)
    {name : String} (hname : name = "" ∨ name = "." ∨ name = "..") :
    Stands t (p.child name) := by
  intro loc hloc hfree
  by_cases hup : name = ".."
  · subst hup
    exact absurd hloc (Path.not_spells_child_up hp)
  · have hvoid : name = "" ∨ name = "." := hname.imp id fun h => h.resolve_right hup
    exact h loc (hloc.of_child_void hp hvoid) hfree

/-- Something stands at every path that a walk comes to. -/
theorem Walks.stands {t : FileTree} {place last : Place} {comps : List Pattern}
    (h : Walks t place comps last) (hp : place.path.text ≠ "") (hs : Stands t place.path) :
    Stands t last.path := by
  induction h with
  | done => exact hs
  | @literal place _ _ _ name _ hlead _ ih =>
    apply ih (Path.child_text_ne name hp)
    by_cases hdots : name = "." ∨ name = ".."
    · exact stands_child_of_dots hp hs (.inr hdots)
    · rw [Place.leadsTo, if_neg hdots] at hlead
      exact get?_of_isThere hlead
  | dots hname _ _ _ _ ih =>
    exact ih (Path.child_text_ne _ hp) (stands_child_of_dots hp hs (.inr hname))
  | name _ hl hm _ _ _ ih => exact ih (Path.child_text_ne _ hp) (stands_child_of_list hp hl hm)
  | skip _ hl hm _ _ ih => exact ih (Path.child_text_ne _ hp) (stands_child_of_list hp hl hm)
  | deeper _ hl hm _ ih => exact ih (Path.child_text_ne _ hp) (stands_child_of_list hp hl hm)
  | last _ hl hm _ => exact stands_child_of_list hp hl hm

/-- A component that stands for a name, or for names, and for nothing else: neither a void segment
nor `.*`, which a lone dot matches. -/
structure Pattern.IsNaming (c : Pattern) : Prop extends c.IsComponent where
  ne_empty : c.text ≠ ""
  ne_here : c.text ≠ "."
  ne_dotStar : c.text ≠ ".*"

theorem parts_child_name {p : Path} {name : String} (hp : p.text ≠ "")
    (hname : name ≠ "" ∧ name ≠ "." ∧ name ≠ ".." ∧ '/' ∉ name.toList) :
    (p.child name).parts = p.parts ++ [.name name] := by
  rw [Path.parts_child_name hp hname.2.2.2]
  simp [Path.Part.ofInner?, hname]

/-- What leads from a path to another, when it is names, is matched by components. -/
def LaidAlong (comps : List Pattern) (p q : Path) : Prop :=
  ∃ added, q.parts = p.parts ++ added ∧
    ∀ names, added = names.map Path.Part.name → NamesMatch comps names

theorem laidAlong_nil (p : Path) : LaidAlong [] p p := by
  refine ⟨[], (List.append_nil _).symm, fun names hnames => ?_⟩
  rw [List.map_eq_nil_iff.mp hnames.symm]
  exact .nil

/-- A step by a name leaves the rest of the way to the rest of the components. -/
theorem LaidAlong.cons {p q : Path} {n : String} {comps rest : List Pattern} (hp : p.text ≠ "")
    (hn : n ≠ "" ∧ n ≠ "." ∧ n ≠ ".." ∧ '/' ∉ n.toList)
    (hcons : ∀ names, NamesMatch rest names → NamesMatch comps (n :: names))
    (h : LaidAlong rest (p.child n) q) : LaidAlong comps p q := by
  have ⟨added, hq, hmatch⟩ := h
  rw [parts_child_name hp hn, List.append_assoc] at hq
  refine ⟨[.name n] ++ added, hq, fun names hnames => ?_⟩
  cases names with
  | nil => simp at hnames
  | cons m more =>
    have ⟨hm, hmore⟩ := List.cons.inj hnames
    rw [← Path.Part.name.inj hm]
    exact hcons more (hmatch more hmore)

/-- A step up can not be undone by names. -/
theorem LaidAlong.up {p q : Path} {comps rest : List Pattern} (hp : p.text ≠ "")
    (h : LaidAlong rest (p.child "..") q) : LaidAlong comps p q := by
  have ⟨added, hq, _⟩ := h
  rw [Path.parts_child_name hp (by decide), List.append_assoc] at hq
  refine ⟨_, hq, fun names hnames => ?_⟩
  cases names <;> simp [Path.Part.ofInner?] at hnames

/-- What a walk adds to a path when its components all name something: the names that they are
laid along, unless it went up. -/
theorem Walks.laidAlong {t : FileTree} {place last : Place} {comps : List Pattern}
    (h : Walks t place comps last) (hp : place.path.text ≠ "")
    (hcomps : ∀ c ∈ comps, c.IsNaming) : LaidAlong comps place.path last.path := by
  have hrest {c : Pattern} {cs : List Pattern} (h : ∀ x ∈ c :: cs, x.IsNaming) :
      ∀ x ∈ cs, x.IsNaming :=
    fun x hx => h x (List.mem_cons_of_mem _ hx)
  induction h with
  | done => exact laidAlong_nil _
  | @literal place _ c rest name hlit hlead _ ih =>
    have hc := hcomps c List.mem_cons_self
    have ih := ih (Path.child_text_ne name hp) (hrest hcomps)
    have htext := hc.literal?_eq hlit
    by_cases hname : name = ".."
    · subst hname
      exact .up hp ih
    · have hn : name ≠ "" ∧ name ≠ "." ∧ name ≠ ".." ∧ '/' ∉ name.toList :=
        ⟨htext ▸ hc.ne_empty, htext ▸ hc.ne_here, hname, htext ▸ hc.slashFree⟩
      refine .cons hp hn (fun names h => ?_) ih
      exact .name (Pattern.isRecursive_of_literal? hlit)
        ((Pattern.matches_of_literal? hlit).mpr rfl) h
  | @dots _ _ c _ name hname hlit hopens hm _ ih =>
    have hc := hcomps c List.mem_cons_self
    cases hname with
    | inl h =>
      rw [h, Pattern.matches_iff] at hm
      exact absurd (hc.text_of_matches_dot hlit hopens hm) hc.ne_dotStar
    | inr h =>
      subst h
      exact .up hp (ih (Path.child_text_ne _ hp) (hrest hcomps))
  | name hlit hl hm hr hc _ ih =>
    refine .cons hp (name_of_list hl hm) (fun names h => ?_)
      (ih (Path.child_text_ne _ hp) (hrest hcomps))
    exact .name hr ((Pattern.matches_iff _ _).mp hc) h
  | @skip _ _ c d rest _ _ _ hr hl hm hd _ ih =>
    refine .cons hp (name_of_list hl hm) (fun names h => ?_)
      (ih (Path.child_text_ne _ hp) (hrest (hrest hcomps)))
    refine .skip hr (by simp) ?_
    cases hdr : d.isRecursive with
    | false => exact .name hdr ((Pattern.matches_iff _ _).mp hd) h
    | true =>
      cases rest with
      | nil => cases h; exact .last hdr
      | cons => exact .deeper hdr (.skip hdr (by simp) h)
  | deeper hr hl hm _ ih =>
    exact .cons hp (name_of_list hl hm) (fun names h => .deeper hr h)
      (ih (Path.child_text_ne _ hp) hcomps)
  | last hr hl hm _ =>
    refine .cons hp (name_of_list hl hm) (fun names h => ?_) (laidAlong_nil _)
    cases h
    exact .last hr

end Sidecar.Glob
