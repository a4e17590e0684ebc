import Sidecar.Proofs.Agreement
import Sidecar.Proofs.Growth

/-! Walks through a tree that has gained sidecars. A pattern that does not go up comes upon what it
came upon before, in the order of before, and upon sidecars besides. -/

namespace Sidecar

namespace FileTree

section

variable {t u : FileTree} {loc : Location}

theorem sorted_namesIn (t : FileTree) (loc : Location) : (t.namesIn loc).Pairwise (· ≤ ·) := by
  unfold namesIn
  refine (List.pairwise_mergeSort (fun a b c hab hbc => ?_) (fun a b => ?_) _).imp (by simp)
  · simp only [decide_eq_true_eq] at hab hbc ⊢
    exact String.le_trans hab hbc
  · simpa using String.le_total a b

/-- Two directories list alike the entries that they share. -/
theorem filter_entriesIn {other : Location} {shared : String → Bool}
    (h : ∀ name, shared name = true → u.get? (name :: other) = t.get? (name :: loc)) :
    (u.entriesIn other).filter (fun x => shared x.1) =
      (t.entriesIn loc).filter (fun x => shared x.1) := by
  have hnames (w : FileTree) (l : Location) : (w.entriesIn l).filter (fun x => shared x.1) =
      ((w.namesIn l).filter shared).filterMap fun name =>
        (w.get? (name :: l)).map (name, ·) := by
    rw [entriesIn, List.filter_filterMap, List.filterMap_filter]
    refine List.filterMap_congr fun name _ => ?_
    cases hs : shared name <;> cases w.get? (name :: l) <;> simp [hs]
  have hsame : (u.namesIn other).filter shared = (t.namesIn loc).filter shared := by
    have hperm : ((u.namesIn other).filter shared).Perm ((t.namesIn loc).filter shared) := by
      refine (List.perm_ext_iff_of_nodup ((u.nodup_namesIn other).filter _)
        ((t.nodup_namesIn loc).filter _)).mpr fun name => ?_
      rw [List.mem_filter, List.mem_filter, mem_namesIn, mem_namesIn]
      exact and_congr_left fun hs => by rw [h name hs]
    exact hperm.eq_of_pairwise (fun a b _ _ hab hba => String.le_antisymm hab hba)
      ((u.sorted_namesIn other).filter _) ((t.sorted_namesIn loc).filter _)
  rw [hnames, hnames, hsame]
  refine List.filterMap_congr fun name hname => ?_
  rw [h name (List.mem_filter.mp hname).2]

end

end FileTree

/-- `u` is `t` but for sidecars, made where nothing was or in place of other files. -/
structure FileTree.GainsSidecars (t u : FileTree) : Prop where
  grows : t.GrowsTo u
  named : ∀ name dir, u.get? (name :: dir) ≠ t.get? (name :: dir) →
    sidecarSuffix.toList <:+ name.toList

namespace Glob

open FileTree

/-- A component that leads down or stays: neither `..` nor a wildcard that asks for a dot. -/
structure Pattern.IsDownward (c : Pattern) : Prop extends c.IsComponent where
  ne_up : c.text ≠ ".."
  not_dots : c.literal? = none → c.opensWithDot = false

/-- A component that does not lead up: not even when it asks for a dot does it match `..`. -/
structure Pattern.StaysBelow (c : Pattern) : Prop extends c.IsComponent where
  not_up : c.opensWithDot = true → ¬c.Matches ".."

theorem Pattern.StaysBelow.ne_up {c : Pattern} (h : c.StaysBelow) {name : String}
    (hlit : c.literal? = some name) : name ≠ ".." := by
  rintro rfl
  refine h.not_up ?_ ((matches_of_literal? hlit).mpr rfl)
  rw [opensWithDot, tokens_of_literal? hlit]
  rfl

theorem Pattern.IsDownward.staysBelow {c : Pattern} (h : c.IsDownward) : c.StaysBelow := by
  refine { h.toIsComponent with not_up := fun hopens hm => ?_ }
  cases hlit : c.literal? with
  | none =>
    rw [h.not_dots hlit] at hopens
    contradiction
  | some name =>
    rw [matches_of_literal? hlit, h.literal?_eq hlit] at hm
    exact h.ne_up hm.symm

/-- A place at a location: it is taken for a directory only if one stands there. -/
structure Place.IsAt (place : Place) (t : FileTree) (loc : Location) : Prop where
  spells : place.path.Spells loc
  get?_of_isDirectory : place.isDirectory = true → t.get? loc = some .directory

section

variable {t u : FileTree} {onlyDirectories : Bool} {place : Place} {loc : Location}
  {c : Pattern} {comps rest : List Pattern}

theorem isAt_at {p : Path} (hp : p.Spells loc) (hfree : t.LinkFreeAlong loc) :
    (Place.at t p).IsAt t loc :=
  ⟨hp, FileTree.get?_of_isDirectory hp hfree⟩

theorem Place.IsAt.isDirectory_eq_false (h : place.IsAt t loc)
    (hnot : t.get? loc ≠ some .directory) : place.isDirectory = false := by
  rw [← Bool.not_eq_true]
  exact fun hdir => hnot (h.get?_of_isDirectory hdir)

/-- Where a step by a literal component leads, as a location. -/
def below (name : String) (loc : Location) : Location :=
  if name = "" ∨ name = "." then loc else name :: loc

theorem spells_child {p : Path} {name : String} (hp : p.Spells loc) (hup : name ≠ "..")
    (hslash : '/' ∉ name.toList) : (p.child name).Spells (below name loc) := by
  unfold below
  split
  next hvoid =>
    rw [Path.Spells, Path.parts_child_name hp.text_ne hslash, hp]
    simp [Path.Part.ofInner?, hvoid]
  next hname =>
    rw [not_or] at hname
    exact hp.child ⟨hname.1, hname.2, hup, hslash⟩

theorem suffix_below {above : Location} (name : String) (h : above <:+ loc) :
    above <:+ below name loc := by
  unfold below
  split
  · exact h
  · exact h.trans (List.suffix_cons name loc)

theorem linkFreeAlong_cons (hfree : t.LinkFreeAlong loc) (hnot : t.get? loc ≠ some .directory)
    (name : String) : t.LinkFreeAlong (name :: loc) := by
  intro l target hs hl
  cases List.suffix_cons_iff.mp hs with
  | inl heq => exact hnot (get?_parent (heq ▸ hl))
  | inr hs => exact hfree l target hs hl

/-- From a place that is no directory, components find nothing but the place itself. -/
theorem spells_of_mem_expand (hplace : place.IsAt t loc) (hfree : t.LinkFreeAlong loc)
    (hnot : t.get? loc ≠ some .directory) (hcomps : ∀ c ∈ comps, c.IsDownward)
    {r : Except Unlistable Path} (hr : r ∈ expand t onlyDirectories place comps) :
    ∃ p, r = .ok p ∧ p.Spells loc := by
  induction comps generalizing place with
  | nil =>
    rw [expand_nil, List.mem_ite_nil_left] at hr
    exact ⟨place.path, List.mem_singleton.mp hr.2, hplace.spells⟩
  | cons c rest ih =>
    have hc := hcomps c List.mem_cons_self
    cases hlit : c.literal? with
    | none =>
      rw [expand_of_not_isDirectory hlit (hplace.isDirectory_eq_false hnot)] at hr
      simp at hr
    | some name =>
      rw [expand_literal hlit, List.mem_ite_nil_right] at hr
      obtain ⟨hleads, hr⟩ := hr
      have htext := hc.literal?_eq hlit
      have hchild := spells_child hplace.spells (htext ▸ hc.ne_up) (htext ▸ hc.slashFree)
      by_cases hvoid : name = "" ∨ name = "."
      · rw [below, if_pos hvoid] at hchild
        exact ih (isAt_at hchild hfree) (fun d hd => hcomps d (List.mem_cons_of_mem _ hd)) hr
      · -- Nothing stands below a place that is no directory.
        rw [below, if_neg hvoid] at hchild
        rw [not_or] at hvoid
        have hup : name ≠ ".." := htext ▸ hc.ne_up
        rw [Place.leadsTo, if_neg (by simp [hvoid, hup])] at hleads
        have hsome := get?_of_isThere hleads _ hchild (linkFreeAlong_cons hfree hnot name)
        obtain ⟨e, he⟩ := Option.isSome_iff_exists.mp hsome
        exact absurd (get?_parent he) hnot

/-- What is found that is no sidecar. -/
def isContent : Except Unlistable Path → Bool
  | .ok p => !isSidecar p
  | .error _ => true

theorem filter_expand_of_sidecar (onlyDirectories : Bool) {name : String} {dir : Location}
    (hplace : place.IsAt t (name :: dir)) (hfree : t.LinkFreeAlong (name :: dir))
    (hnot : t.get? (name :: dir) ≠ some .directory) (hname : sidecarSuffix.toList <:+ name.toList)
    (hcomps : ∀ c ∈ comps, c.IsDownward) :
    (expand t onlyDirectories place comps).filter isContent = [] := by
  rw [List.filter_eq_nil_iff]
  intro r hr
  have ⟨p, hp, hspells⟩ := spells_of_mem_expand hplace hfree hnot hcomps hr
  rw [hp, isContent, (isSidecar_iff hspells).mpr hname]
  simp

theorem isAt_below (hp : place.path.Spells loc) {name : String} {e : Entry}
    (he : t.get? (name :: loc) = some e) (hlink : ∀ target, e ≠ .link target) :
    (place.below t name e).IsAt t (name :: loc) := by
  have ⟨h1, h2, h3, h4, _⟩ := isEntryName_of_get? he
  refine ⟨hp.child ⟨h1, h2, h3, h4⟩, fun hdir => ?_⟩
  cases e with
  | directory => exact he
  | file => contradiction
  | link target => exact absurd rfl (hlink target)

theorem below_congr (t u : FileTree) (place : Place) (name : String) {e : Entry}
    (hlink : ∀ target, e ≠ .link target) : place.below u name e = place.below t name e := by
  cases e with
  | directory | file => rfl
  | link target => exact absurd rfl (hlink target)

/-- An entry with a sidecar's name that is a file leads to nothing but sidecars. -/
theorem filter_expandInto_of_sidecar {name : String} {content : ByteArray}
    (hp : place.path.Spells loc) (hfree : t.LinkFreeAlong (name :: loc))
    (hfile : t.get? (name :: loc) = some (.file content))
    (hname : sidecarSuffix.toList <:+ name.toList) (hrest : ∀ d ∈ rest, d.IsDownward) :
    (expandInto t onlyDirectories place c rest name (.file content)).filter isContent = [] := by
  have hat : (place.below t name (.file content)).IsAt t (name :: loc) :=
    isAt_below hp hfile (by simp)
  have hnot : t.get? (name :: loc) ≠ some .directory := by simp [hfile]
  have hnext : (place.below t name (.file content)).isDirectory = false := rfl
  unfold expandInto
  simp only [hnext, Bool.false_eq_true, if_false, List.append_nil]
  have hnone {cs : List Pattern} (hcs : ∀ d ∈ cs, d.IsDownward) :=
    filter_expand_of_sidecar onlyDirectories hat hfree hnot hname hcs
  split
  · cases rest with
    | nil => rfl
    | cons d more =>
      have hmore := hnone fun x hx => hrest x (List.mem_cons_of_mem _ hx)
      simp only
      split
      · exact hmore
      · rfl
  · split
    · exact hnone hrest
    · rfl

theorem isThere_congr {p : Path} (hgrows : t.GrowsTo u) (hp : p.Spells loc)
    (hfree : t.LinkFreeAlong loc) (hsame : u.get? loc = t.get? loc) :
    isThere u p = isThere t p := by
  cases hloc : t.get? loc with
  | some e =>
    have hagree := agreeAlong_of_isSome (by simp [hloc]) hsame
    simp only [isThere, find_congr hp hfree hagree]
  | none =>
    have hthere {w : FileTree} (hw : w.LinkFreeAlong loc) (hnone : w.get? loc = none) :
        isThere w p = false := by
      rw [← Bool.not_eq_true]
      intro h
      have := get?_of_isThere h _ hp hw
      rw [hnone] at this
      contradiction
    rw [hthere hfree hloc, hthere (hgrows.linkFreeAlong hfree) (hsame.trans hloc)]

theorem Place.IsAt.grown (h : place.IsAt t loc) (hgrows : t.GrowsTo u) : place.IsAt u loc :=
  ⟨h.spells, fun hdir => (hgrows.get?_iff (by simp)).mpr (h.get?_of_isDirectory hdir)⟩

/-- A place that was changed is a sidecar and leads to nothing else, before and after. -/
theorem filter_expand_of_changed (onlyDirectories : Bool) (place : Place)
    (hgains : t.GainsSidecars u) (hfree : t.LinkFreeAlong loc)
    (hchanged : u.get? loc ≠ t.get? loc) (hcomps : ∀ c ∈ comps, c.IsDownward) :
    (place.IsAt t loc → (expand t onlyDirectories place comps).filter isContent = []) ∧
      (place.IsAt u loc → (expand u onlyDirectories place comps).filter isContent = []) := by
  cases loc with
  | nil => exact absurd rfl hchanged
  | cons name dir =>
    have hname := hgains.named name dir hchanged
    have hnot := hgains.grows.not_directory hchanged
    have hnot' : u.get? (name :: dir) ≠ some .directory := by
      rwa [ne_eq, hgains.grows.get?_iff (by simp)]
    exact ⟨fun h => filter_expand_of_sidecar _ h hfree hnot hname hcomps,
      fun h => filter_expand_of_sidecar _ h (hgains.grows.linkFreeAlong hfree) hnot' hname hcomps⟩

/-- One step by a literal component. -/
theorem filter_expand_literal (hgains : t.GainsSidecars u) (hplace : place.IsAt t loc)
    (hfree : ∀ name, t.LinkFreeAlong (below name loc)) (hc : c.IsDownward)
    (hrest : ∀ d ∈ rest, d.IsDownward) {name : String} (hlit : c.literal? = some name)
    (ih : (expand u onlyDirectories (.at t (place.path.child name)) rest).filter isContent =
      (expand t onlyDirectories (.at t (place.path.child name)) rest).filter isContent) :
    (expand u onlyDirectories place (c :: rest)).filter isContent =
      (expand t onlyDirectories place (c :: rest)).filter isContent := by
  have htext := hc.literal?_eq hlit
  have hchild := spells_child hplace.spells (htext ▸ hc.ne_up) (htext ▸ hc.slashFree)
  have hat : Place.at u (place.path.child name) = Place.at t (place.path.child name) :=
    congrArg (Place.mk _) (hgains.grows.isDirectory_eq hchild (hfree name))
  rw [expand_literal hlit, expand_literal hlit, hat]
  by_cases hsame : u.get? (below name loc) = t.get? (below name loc)
  · have hleads : place.leadsTo u name = place.leadsTo t name := by
      rw [Place.leadsTo, Place.leadsTo, isThere_congr hgains.grows hchild (hfree name) hsame]
    rw [hleads]
    split
    · exact ih
    · rfl
  · have hisAt : (Place.at t (place.path.child name)).IsAt t (below name loc) :=
      isAt_at hchild (hfree name)
    obtain ⟨hbefore, hafter⟩ := filter_expand_of_changed onlyDirectories
      (.at t (place.path.child name)) hgains (hfree name) hsame hrest
    have hnone (w : FileTree) (leads : Bool)
        (h : (expand w onlyDirectories (.at t (place.path.child name)) rest).filter isContent =
          []) :
        (if leads then expand w onlyDirectories (.at t (place.path.child name)) rest
          else []).filter isContent = [] := by
      split
      · exact h
      · rfl
    rw [hnone u _ (hafter (hisAt.grown hgains.grows)), hnone t _ (hbefore hisAt)]

theorem flatMap_filter_of_eq_nil {α β : Type} {f : α → List β} {p : α → Bool} {xs : List α}
    (h : ∀ x ∈ xs, p x = false → f x = []) : (xs.filter p).flatMap f = xs.flatMap f := by
  induction xs with
  | nil => rfl
  | cons x xs ih =>
    have ih := ih fun y hy => h y (List.mem_cons_of_mem _ hy)
    cases hx : p x with
    | true => rw [List.filter_cons_of_pos hx, List.flatMap_cons, List.flatMap_cons, ih]
    | false =>
      rw [List.filter_cons_of_neg (by simp [hx]), List.flatMap_cons, h x List.mem_cons_self hx, ih,
        List.nil_append]

/-- One entry that both trees have. -/
theorem filter_expandInto_congr {name : String} {e : Entry} (hlink : ∀ target, e ≠ .link target)
    (hrest : ∀ d ∈ rest, d.IsDownward) (hc : c.IsDownward)
    (ih : ∀ cs : List Pattern, (∀ d ∈ cs, d.IsDownward) →
      (expand u onlyDirectories (place.below t name e) cs).filter isContent =
        (expand t onlyDirectories (place.below t name e) cs).filter isContent) :
    (expandInto u onlyDirectories place c rest name e).filter isContent =
      (expandInto t onlyDirectories place c rest name e).filter isContent := by
  unfold expandInto
  rw [below_congr t u place name hlink]
  have hdeeper := ih (c :: rest) (by simpa using ⟨hc, hrest⟩)
  simp only [apply_ite (List.filter isContent), List.filter_append, List.filter_nil, ih rest hrest,
    hdeeper]
  cases rest with
  | nil => simp only [apply_ite (List.filter isContent), ih [] (by simp), List.filter_nil]
  | cons d more =>
    have hmore := ih more fun x hx => hrest x (List.mem_cons_of_mem _ hx)
    simp only [apply_ite (List.filter isContent), hmore, List.filter_nil]

/-- One step by a wildcard from a directory: its entries are listed in one order, and those that
were changed are sidecars. -/
theorem filter_expand_wildcard (hgains : t.GainsSidecars u) (hplace : place.IsAt t loc)
    (hfree : ∀ l, loc <:+ l → t.LinkFreeAlong l) (hdir : place.isDirectory = true)
    (hc : c.IsDownward) (hrest : ∀ d ∈ rest, d.IsDownward) (hlit : c.literal? = none)
    (ih : ∀ name e, t.list place.path = .ok (t.entriesIn loc) → t.get? (name :: loc) = some e →
      ∀ cs : List Pattern, (∀ d ∈ cs, d.IsDownward) →
        (expand u onlyDirectories (place.below t name e) cs).filter isContent =
          (expand t onlyDirectories (place.below t name e) cs).filter isContent) :
    (expand u onlyDirectories place (c :: rest)).filter isContent =
      (expand t onlyDirectories place (c :: rest)).filter isContent := by
  have hloc := hplace.get?_of_isDirectory hdir
  have hloc' : u.get? loc = some .directory := (hgains.grows.get?_iff (by simp)).mpr hloc
  have hlist := list_eq hplace.spells hloc
  have hlist' := list_eq hplace.spells hloc'
  rw [locate_congr hplace.spells (hfree loc (List.suffix_refl _))
    (hgains.grows.agreeAlong hloc)] at hlist'
  cases hlocate : t.locate .target place.path with
  | error e =>
    rw [hlocate] at hlist hlist'
    rw [expand_of_unlistable hlit hdir hlist, expand_of_unlistable hlit hdir hlist']
  | ok found =>
    rw [hlocate] at hlist hlist'
    replace hlist : t.list place.path = .ok (t.entriesIn loc) := hlist
    replace hlist' : u.list place.path = .ok (u.entriesIn loc) := hlist'
    have hdots (w : FileTree) (dots : String) :
        expandDots w onlyDirectories place c rest dots = [] := by
      rw [expandDots, hc.not_dots hlit]
      rfl
    have hfreeBelow (name : String) : t.LinkFreeAlong (name :: loc) :=
      hfree _ (List.suffix_cons name loc)
    rw [expand_wildcard hlit hdir hlist, expand_wildcard hlit hdir hlist', hdots, hdots, hdots,
      hdots, List.nil_append, List.nil_append, List.nil_append, List.filter_flatMap,
      List.filter_flatMap]
    let shared (name : String) : Bool := decide (u.get? (name :: loc) = t.get? (name :: loc))
    have hsidecar (w : FileTree) (hw : t.GrowsTo w)
        (hfile : ∀ name, shared name = false → ∀ e, w.get? (name :: loc) = some e →
          ∃ content, e = .file content) :
        ∀ x ∈ w.entriesIn loc, shared x.1 = false →
          (expandInto w onlyDirectories place c rest x.1 x.2).filter isContent = [] := by
      rintro ⟨name, e⟩ hmem hshared
      have he := mem_entriesIn.mp hmem
      obtain ⟨content, rfl⟩ := hfile name hshared e he
      exact filter_expandInto_of_sidecar hplace.spells (hw.linkFreeAlong (hfreeBelow name)) he
        (hgains.named name loc (of_decide_eq_false hshared)) hrest
    have hafter := hsidecar u hgains.grows fun name hshared e he => by
      obtain ⟨content, hu, _⟩ :=
        (hgains.grows (name :: loc)).resolve_left (of_decide_eq_false hshared)
      exact ⟨content, Option.some.inj (he.symm.trans hu)⟩
    have hbefore := hsidecar t (growsTo_refl t) fun name hshared e he => by
      obtain ⟨_, _, hold⟩ := (hgains.grows (name :: loc)).resolve_left (of_decide_eq_false hshared)
      rw [he] at hold
      obtain ⟨content, hcontent⟩ := hold.resolve_left (by simp)
      exact ⟨content, Option.some.inj hcontent⟩
    rw [← flatMap_filter_of_eq_nil hafter, ← flatMap_filter_of_eq_nil hbefore,
      filter_entriesIn fun name hshared => of_decide_eq_true hshared]
    refine List.flatMap_congr ?_
    rintro ⟨name, e⟩ hmem
    have he := mem_entriesIn.mp (List.mem_filter.mp hmem).1
    refine filter_expandInto_congr (fun target hlink => ?_) hrest hc (ih name e hlist he)
    exact hfreeBelow name _ target (List.suffix_refl _) (hlink ▸ he)

/-- What components that lead down find is the same before and after but for sidecars. -/
theorem filter_expand (hgains : t.GainsSidecars u) (place : Place) (comps : List Pattern)
    {loc : Location} (hplace : place.IsAt t loc) (hfree : ∀ l, loc <:+ l → t.LinkFreeAlong l)
    (hcomps : ∀ c ∈ comps, c.IsDownward) :
    (expand u onlyDirectories place comps).filter isContent =
      (expand t onlyDirectories place comps).filter isContent := by
  match comps with
  | [] => rw [expand_nil, expand_nil]
  | c :: rest =>
    have hc := hcomps c List.mem_cons_self
    have hrest : ∀ d ∈ rest, d.IsDownward := fun d hd => hcomps d (List.mem_cons_of_mem _ hd)
    cases hlit : c.literal? with
    | some name =>
      have htext := hc.literal?_eq hlit
      have hchild := spells_child hplace.spells (htext ▸ hc.ne_up) (htext ▸ hc.slashFree)
      have hbelow (n : String) : loc <:+ below n loc := suffix_below n (List.suffix_refl loc)
      have := room_child_le place.path name
      exact filter_expand_literal hgains hplace (fun n => hfree _ (hbelow n)) hc hrest hlit
        (filter_expand hgains _ rest (isAt_at hchild (hfree _ (hbelow name)))
          (fun l hl => hfree l ((hbelow name).trans hl)) hrest)
    | none =>
      cases hdir : place.isDirectory with
      | false =>
        rw [expand_of_not_isDirectory hlit hdir, expand_of_not_isDirectory hlit hdir]
      | true =>
        refine filter_expand_wildcard hgains hplace hfree hdir hc hrest hlit ?_
        intro name e hlist he cs hcs
        have := room_child_lt hlist (mem_entriesIn.mpr he)
        have hfreeBelow := hfree _ (List.suffix_cons name loc)
        have hlink : ∀ target, e ≠ .link target := fun target hlink =>
          hfreeBelow _ target (List.suffix_refl _) (hlink ▸ he)
        exact filter_expand hgains _ cs (isAt_below hplace.spells he hlink)
          (fun l hl => hfree l ((List.suffix_cons name loc).trans hl)) hcs
  termination_by (room place.path, comps.length)
  decreasing_by
    all_goals
      simp only [Place.at, Place.below, Prod.lex_def, List.length_cons]
      omega

/-- A walk that does not go up ends below where it began. -/
theorem Walks.exists_spells {last : Place} (h : Walks t place comps last)
    (hp : place.path.Spells loc) (hcomps : ∀ c ∈ comps, c.StaysBelow) :
    ∃ l, loc <:+ l ∧ last.path.Spells l := by
  have hrest {c : Pattern} {cs : List Pattern} (h : ∀ x ∈ c :: cs, x.StaysBelow) :
      ∀ x ∈ cs, x.StaysBelow :=
    fun x hx => h x (List.mem_cons_of_mem _ hx)
  induction h generalizing loc with
  | done => exact ⟨loc, List.suffix_refl loc, hp⟩
  | @literal _ _ c _ name hlit _ _ ih =>
    have hc := hcomps c List.mem_cons_self
    have hslash := hc.literal?_eq hlit ▸ hc.slashFree
    have ⟨l, hl, hlast⟩ := ih (spells_child hp (hc.ne_up hlit) hslash) (hrest hcomps)
    exact ⟨l, (suffix_below name (List.suffix_refl loc)).trans hl, hlast⟩
  | @dots _ _ c _ name hname _ hopens hm _ ih =>
    have hc := hcomps c List.mem_cons_self
    cases hname with
    | inl hhere =>
      subst hhere
      exact ih (spells_child hp (by decide) (by decide)) (hrest hcomps)
    | inr hup =>
      subst hup
      exact absurd ((c.matches_iff _).mp hm) (hc.not_up hopens)
  | name _ hlist hm _ _ _ ih =>
    have ⟨l, hl, hlast⟩ := ih (hp.child (name_of_list hlist hm)) (hrest hcomps)
    exact ⟨l, (List.suffix_cons _ loc).trans hl, hlast⟩
  | skip _ hlist hm _ _ ih =>
    have ⟨l, hl, hlast⟩ := ih (hp.child (name_of_list hlist hm)) (hrest (hrest hcomps))
    exact ⟨l, (List.suffix_cons _ loc).trans hl, hlast⟩
  | deeper _ hlist hm _ ih =>
    have ⟨l, hl, hlast⟩ := ih (hp.child (name_of_list hlist hm)) hcomps
    exact ⟨l, (List.suffix_cons _ loc).trans hl, hlast⟩
  | last _ hlist hm => exact ⟨_, List.suffix_cons _ loc, hp.child (name_of_list hlist hm)⟩

end

end Glob

end Sidecar
