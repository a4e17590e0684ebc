import Sidecar.Proofs.Copies
import Sidecar.Proofs.Reselection

/-! Selection under two directories with the same content. Patterns that do not go up come upon
paths with the same trails, in the same order, and the same files are selected, as long as no path
is too long to be looked up. -/

namespace Sidecar

open Sidecar.Path

namespace Glob

/-- What a walk goes on by behind an entry of a directory, by its name and whether it is a directory
too: a `**` is kept, or left behind for the component that follows. -/
inductive GoesOn (c : Pattern) : List Pattern → String → Bool → List Pattern → Prop where
  | name {rest name dir} : c.isRecursive = false → c.matches name = true →
      GoesOn c rest name dir rest
  | last {name} : c.isRecursive = true → GoesOn c [] name true []
  | skip {d rest name dir} : c.isRecursive = true → d.matches name = true →
      GoesOn c (d :: rest) name dir rest
  | deeper {rest name} : c.isRecursive = true → GoesOn c rest name true (c :: rest)

/-- The paths that a walk looks up where no link is on the way: it lists directories, tries names,
and hands on the paths it finds. -/
inductive LooksUp (t : FileTree) (onlyDirectories : Bool) : Place → List Pattern → Path → Prop where
  | found {place} : (onlyDirectories = true → place.isDirectory = true) →
      LooksUp t onlyDirectories place [] place.path
  | listed {place c rest} : c.literal? = none → place.isDirectory = true →
      LooksUp t onlyDirectories place (c :: rest) place.path
  | tried {place c rest name} : c.literal? = some name →
      LooksUp t onlyDirectories place (c :: rest) (place.path.child name)
  | literal {place c rest name p} : c.literal? = some name → place.leadsTo t name = true →
      LooksUp t onlyDirectories (.at t (place.path.child name)) rest p →
      LooksUp t onlyDirectories place (c :: rest) p
  | dots {place c rest name p} : name = "." ∨ name = ".." → c.literal? = none →
      place.isDirectory = true → c.opensWithDot = true → c.matches name = true →
      LooksUp t onlyDirectories (.at t (place.path.child name)) rest p →
      LooksUp t onlyDirectories place (c :: rest) p
  | entry {place c rest found name entry cs p} : c.literal? = none → place.isDirectory = true →
      t.list place.path = .ok found → (name, entry) ∈ found →
      GoesOn c rest name (place.below t name entry).isDirectory cs →
      LooksUp t onlyDirectories (place.below t name entry) cs p →
      LooksUp t onlyDirectories place (c :: rest) p

/-- Two walks find the paths of the same trails. -/
def FindAlike (a b : Location) (found other : List (Except Unlistable Path)) : Prop :=
  ∃ trails : List (List String), (∀ x ∈ trails, Fits a x ∧ Fits b x) ∧
    found = trails.map (fun x => .ok (behind a x)) ∧ other = trails.map (fun x => .ok (behind b x))

section

variable {a b : Location} {found other more others : List (Except Unlistable Path)}

theorem findAlike_nil (a b : Location) : FindAlike a b [] [] :=
  ⟨[], by simp, rfl, rfl⟩

theorem FindAlike.append (h : FindAlike a b found other) (h' : FindAlike a b more others) :
    FindAlike a b (found ++ more) (other ++ others) := by
  obtain ⟨xs, hxs, rfl, rfl⟩ := h
  obtain ⟨ys, hys, rfl, rfl⟩ := h'
  refine ⟨xs ++ ys, fun x hx => ?_, List.map_append.symm, List.map_append.symm⟩
  exact (List.mem_append.mp hx).elim (hxs x) (hys x)

theorem FindAlike.ite {cond : Bool} (h : cond = true → FindAlike a b found other) :
    FindAlike a b (if cond then found else []) (if cond then other else []) := by
  cases cond with
  | true => exact h rfl
  | false => exact findAlike_nil a b

theorem findAlike_flatMap {α : Type} {xs : List α} {f g : α → List (Except Unlistable Path)}
    (h : ∀ x ∈ xs, FindAlike a b (f x) (g x)) : FindAlike a b (xs.flatMap f) (xs.flatMap g) := by
  induction xs with
  | nil => exact findAlike_nil a b
  | cons x xs ih =>
    rw [List.flatMap_cons, List.flatMap_cons]
    exact (h x List.mem_cons_self).append (ih fun y hy => h y (List.mem_cons_of_mem _ hy))

end

section

variable {t u : FileTree} {a b : Location} {onlyDirectories dir : Bool} {trail : List String}
  {comps rest : List Pattern} {c : Pattern} {name : String} {e : Entry}

/-- Going down to an entry makes its trail longer. -/
theorem below_behind (ha : ∀ n ∈ a, IsEntryName n) (htrail : IsTrail trail)
    (hlink : ∀ target, e ≠ .link target) : (⟨behind a trail, dir⟩ : Place).below t name e =
      ⟨behind a (extended name trail), e.isDirectory⟩ := by
  rw [Place.below, child_behind ha htrail]
  cases e with
  | directory | file => rfl
  | link target => exact absurd rfl (hlink target)

/-- One entry of two directories that hold the same. -/
theorem expandInto_alike (h : t.IsCopy a u b) (htrail : IsTrail trail)
    (hlink : ∀ target, e ≠ .link target)
    (ih : ∀ cs : List Pattern, GoesOn c rest name e.isDirectory cs →
      FindAlike a b (expand t onlyDirectories ⟨behind a (extended name trail), e.isDirectory⟩ cs)
        (expand u onlyDirectories ⟨behind b (extended name trail), e.isDirectory⟩ cs)) :
    FindAlike a b (expandInto t onlyDirectories ⟨behind a trail, dir⟩ c rest name e)
      (expandInto u onlyDirectories ⟨behind b trail, dir⟩ c rest name e) := by
  unfold expandInto
  rw [below_behind h.isEntryName htrail hlink, below_behind h.symm.isEntryName htrail hlink]
  cases hrec : c.isRecursive with
  | false =>
    simp only [Bool.false_eq_true, if_false]
    exact .ite fun hm => ih rest (.name hrec hm)
  | true =>
    simp only [if_true]
    refine .append ?_ (.ite fun hdir => ih _ (hdir ▸ .deeper hrec))
    cases rest with
    | nil => exact .ite fun hdir => ih [] (hdir ▸ .last hrec)
    | cons d more => exact .ite fun hm => ih more (.skip hrec hm)

theorem GoesOn.subset {cs : List Pattern} (h : GoesOn c rest name dir cs) : cs ⊆ c :: rest := by
  cases h with
  | name => exact List.subset_cons_self _ _
  | last => exact List.nil_subset _
  | skip => exact fun d hd => List.mem_cons_of_mem _ (List.mem_cons_of_mem _ hd)
  | deeper => exact List.Subset.refl _

/-- One step by a literal component. -/
theorem expand_literal_alike (h : t.IsCopy a u b) (htrail : IsTrail trail)
    (hfits : Fits a (extended name trail)) (hfits' : Fits b (extended name trail))
    (hlit : c.literal? = some name)
    (ih : Place.leadsTo t ⟨behind a trail, dir⟩ name = true →
      Place.leadsTo u ⟨behind b trail, dir⟩ name = true →
      FindAlike a b (expand t onlyDirectories (.at t (behind a (extended name trail))) rest)
        (expand u onlyDirectories (.at u (behind b (extended name trail))) rest)) :
    FindAlike a b (expand t onlyDirectories ⟨behind a trail, dir⟩ (c :: rest))
      (expand u onlyDirectories ⟨behind b trail, dir⟩ (c :: rest)) := by
  have hchild := child_behind h.isEntryName htrail name
  have hchild' := child_behind h.symm.isEntryName htrail name
  have hleads : Place.leadsTo u ⟨behind b trail, dir⟩ name =
      Place.leadsTo t ⟨behind a trail, dir⟩ name := by
    simp only [Place.leadsTo, hchild, hchild', h.isThere_eq hfits hfits']
  rw [expand_literal hlit, expand_literal hlit, hleads, hchild, hchild']
  exact .ite fun hlead => ih hlead (hleads.trans hlead)

/-- One step by a wildcard. -/
theorem expand_wildcard_alike (h : t.IsCopy a u b) (hfits : Fits a trail) (hfits' : Fits b trail)
    (hdir : t.get? (plain trail ++ a) = some .directory) (hc : c.IsDownward)
    (hlit : c.literal? = none)
    (ih : ∀ name e cs, t.list (behind a trail) = .ok (t.entriesIn (plain trail ++ a)) →
      u.list (behind b trail) = .ok (t.entriesIn (plain trail ++ a)) →
      (name, e) ∈ t.entriesIn (plain trail ++ a) → (∀ target, e ≠ .link target) →
      GoesOn c rest name e.isDirectory cs →
      FindAlike a b (expand t onlyDirectories ⟨behind a (extended name trail), e.isDirectory⟩ cs)
        (expand u onlyDirectories ⟨behind b (extended name trail), e.isDirectory⟩ cs)) :
    FindAlike a b (expand t onlyDirectories ⟨behind a trail, true⟩ (c :: rest))
      (expand u onlyDirectories ⟨behind b trail, true⟩ (c :: rest)) := by
  have hlist := FileTree.list_behind h.isEntryName hfits hdir
  have hlist' := FileTree.list_behind h.symm.isEntryName hfits' ((h.get?_eq _).trans hdir)
  rw [h.entriesIn_eq] at hlist'
  have hdots (w : FileTree) (l : Location) (dots : String) :
      expandDots w onlyDirectories ⟨behind l trail, true⟩ c rest dots = [] := by
    rw [expandDots, hc.not_dots hlit]
    rfl
  rw [@expand_wildcard t _ ⟨behind a trail, true⟩ _ _ _ hlit rfl hlist,
    @expand_wildcard u _ ⟨behind b trail, true⟩ _ _ _ hlit rfl hlist', hdots, hdots, hdots, hdots,
    List.nil_append, List.nil_append]
  refine findAlike_flatMap ?_
  rintro ⟨name, e⟩ hmem
  have hlink : ∀ target, e ≠ .link target := fun target hlink =>
    h.linkFree _ target (List.suffix_append (name :: plain trail) a)
      (hlink ▸ FileTree.mem_entriesIn.mp hmem)
  exact expandInto_alike h hfits.toIsTrail hlink fun cs => ih name e cs hlist hlist' hmem hlink

theorem GoesOn.of_not_isRecursive {cs : List Pattern} (h : GoesOn c rest name dir cs)
    (hrec : c.isRecursive = false) : c.matches name = true ∧ cs = rest := by
  cases h with
  | name _ hm => exact ⟨hm, rfl⟩
  | last hc | skip hc | deeper hc =>
    rw [hrec] at hc
    contradiction

/-- Where nothing is left to go by, both walks hand on the paths they have come to. -/
theorem expand_nil_alike
    (h : (onlyDirectories = true → dir = true) → Fits a trail ∧ Fits b trail) :
    FindAlike a b (expand t onlyDirectories ⟨behind a trail, dir⟩ [])
      (expand u onlyDirectories ⟨behind b trail, dir⟩ []) := by
  rw [expand_nil, expand_nil]
  cases honly : onlyDirectories && !dir with
  | true => exact findAlike_nil a b
  | false =>
    have hfits := h (by rintro rfl; simpa using honly)
    refine ⟨[trail], fun x hx => ?_, rfl, rfl⟩
    rwa [List.mem_singleton.mp hx]

/-- Components that lead down find the same below both directories. -/
theorem expand_alike (h : t.IsCopy a u b) (trail : List String) (dir : Bool) (comps : List Pattern)
    (htrail : IsTrail trail) (hdir : dir = true → t.get? (plain trail ++ a) = some .directory)
    (hcomps : ∀ c ∈ comps, c.IsDownward)
    (ht : ∀ p, LooksUp t onlyDirectories ⟨behind a trail, dir⟩ comps p →
      p.text.utf8ByteSize < FileTree.maxPathBytes)
    (hu : ∀ p, LooksUp u onlyDirectories ⟨behind b trail, dir⟩ comps p →
      p.text.utf8ByteSize < FileTree.maxPathBytes) :
    FindAlike a b (expand t onlyDirectories ⟨behind a trail, dir⟩ comps)
      (expand u onlyDirectories ⟨behind b trail, dir⟩ comps) := by
  match comps with
  | [] =>
    exact expand_nil_alike fun hfound =>
      ⟨⟨htrail, ht _ (.found hfound)⟩, ⟨htrail, hu _ (.found hfound)⟩⟩
  | c :: rest =>
    have ha := h.isEntryName
    have hb := h.symm.isEntryName
    have hc := hcomps c List.mem_cons_self
    cases hlit : c.literal? with
    | some name =>
      have htext := hc.literal?_eq hlit
      have hnext : IsTrail (extended name trail) :=
        htrail.extended (htext ▸ hc.ne_up) (htext ▸ hc.slashFree)
      have hchild := child_behind ha htrail name
      have hchild' := child_behind hb htrail name
      have hfits : Fits a (extended name trail) := ⟨hnext, ht _ (hchild ▸ .tried hlit)⟩
      have hfits' : Fits b (extended name trail) := ⟨hnext, hu _ (hchild' ▸ .tried hlit)⟩
      refine expand_literal_alike h htrail hfits hfits' hlit fun hlead hlead' => ?_
      have hat : Place.at u (behind b (extended name trail)) =
          ⟨behind b (extended name trail), t.isDirectory (behind a (extended name trail))⟩ :=
        congrArg (Place.mk _) (h.isDirectory_eq hfits hfits')
      have hroom : room (behind a (extended name trail)) ≤ room (behind a trail) :=
        hchild ▸ room_child_le (behind a trail) name
      rw [hat]
      refine expand_alike h (extended name trail) (t.isDirectory (behind a (extended name trail)))
        rest hnext ?_ (fun d hd => hcomps d (List.mem_cons_of_mem _ hd)) ?_ ?_
      · exact FileTree.get?_of_isDirectory (spells_behind ha hnext) (h.linkFreeAlong _)
      · exact fun p hp => ht p (.literal hlit hlead (hchild ▸ hp))
      · exact fun p hp => hu p (.literal hlit hlead' (hchild' ▸ hat ▸ hp))
    | none =>
      cases dir with
      | false =>
        rw [expand_of_not_isDirectory hlit rfl, expand_of_not_isDirectory hlit rfl]
        exact findAlike_nil a b
      | true =>
        have hfits : Fits a trail := ⟨htrail, ht _ (.listed hlit rfl)⟩
        have hfits' : Fits b trail := ⟨htrail, hu _ (.listed hlit rfl)⟩
        refine expand_wildcard_alike h hfits hfits' (hdir rfl) hc hlit ?_
        intro name e cs hlist hlist' hmem hlink hgoes
        have hname := FileTree.isEntryName_of_list hlist hmem
        have hnext : IsTrail (extended name trail) := htrail.extended hname.2.2.1 hname.2.2.2.1
        have hbelow (w : FileTree) {l : Location} (hl : ∀ n ∈ l, IsEntryName n) :
            Place.below w ⟨behind l trail, true⟩ name e =
              ⟨behind l (extended name trail), e.isDirectory⟩ := below_behind hl htrail hlink
        have hroom : room (behind a (extended name trail)) < room (behind a trail) :=
          child_behind ha htrail name ▸ room_child_lt hlist hmem
        refine expand_alike h (extended name trail) e.isDirectory cs hnext (fun he => ?_)
          (fun d hd => hcomps d (hgoes.subset hd)) (fun p hp => ht p ?_) fun p hp => hu p ?_
        · rw [plain_extended hname.1 hname.2.1]
          cases e with
          | directory => exact FileTree.mem_entriesIn.mp hmem
          | file | link => contradiction
        · refine .entry hlit rfl hlist hmem ?_ (hbelow t ha ▸ hp)
          rwa [hbelow t ha]
        · refine .entry hlit rfl hlist' hmem ?_ (hbelow u hb ▸ hp)
          rwa [hbelow u hb]
  termination_by (room (behind a trail), comps.length)
  decreasing_by
    all_goals
      simp only [Prod.lex_def, List.length_cons]
      omega

theorem LooksUp.of_nil {place : Place} {p : Path} (h : LooksUp t onlyDirectories place [] p) :
    p = place.path := by
  cases h
  rfl

theorem LooksUp.of_literal {place : Place} {p : Path} (hlit : c.literal? = some name)
    (h : LooksUp t onlyDirectories place (c :: rest) p) :
    p = place.path.child name ∨
      LooksUp t onlyDirectories (.at t (place.path.child name)) rest p := by
  cases h with
  | tried hname =>
    rw [hlit] at hname
    exact .inl (Option.some.inj hname ▸ rfl)
  | literal hname _ hp =>
    rw [hlit] at hname
    exact .inr (Option.some.inj hname ▸ hp)
  | listed hnone | dots _ hnone | entry hnone =>
    rw [hlit] at hnone
    contradiction

/-- A walk from the root directory looks up what a walk from the root of a run looks up. -/
theorem LooksUp.of_root {root : Path} {p : Path} (hroot : IsRoot t root a)
    (h : LooksUp t onlyDirectories (.at t root) rest p) :
    LooksUp t onlyDirectories (.at t ⟨"/"⟩) (a.reverse.map rootComponent ++ rest) p := by
  refine through_root (P := fun place comps => LooksUp t onlyDirectories place comps p) hroot
    (fun name loc rest hdir hlen h => ?_) h
  have hslash := (FileTree.isEntryName_of_get? hdir).2.2.2.1
  cases hlit : (rootComponent name).literal? with
  | some literal =>
    obtain rfl := literal?_rootComponent hslash hlit
    refine .literal hlit (leadsTo_directory hdir hlen) ?_
    rwa [Place.path_at, FileTree.child_pathOf_of_get? (FileTree.get?_parent hdir)]
  | none =>
    have ⟨hat, hl⟩ := isDirectory_above hdir hlen
    have hmatch := (matches_rootComponent_iff hslash).mpr rfl
    refine .entry hlit hat hl (FileTree.mem_entriesIn.mpr hdir)
      (.name (not_isRecursive_rootComponent name) hmatch) ?_
    rwa [below_directory hdir hlen]

/-- Above its root a run looks up no path that is longer than the root's. -/
theorem LooksUp.under_root {root : Path} {p : Path} (hroot : IsRoot t root a)
    (h : LooksUp t onlyDirectories (.at t ⟨"/"⟩) (a.reverse.map rootComponent ++ rest) p) :
    p.text.utf8ByteSize < FileTree.maxPathBytes ∨
      LooksUp t onlyDirectories (.at t root) rest p := by
  refine through_root (P := fun place comps => LooksUp t onlyDirectories place comps p →
    p.text.utf8ByteSize < FileTree.maxPathBytes ∨ LooksUp t onlyDirectories (.at t root) rest p)
    hroot (fun name loc comps hdir hlen hnext hp => ?_) .inr h
  have ⟨_, hhere, hup, hslash, _⟩ := FileTree.isEntryName_of_get? hdir
  have hchild := FileTree.child_pathOf_of_get? (FileTree.get?_parent hdir) name
  have ⟨_, hl⟩ := isDirectory_above hdir hlen
  cases hp with
  | listed => exact .inl (Nat.lt_of_le_of_lt (FileTree.utf8ByteSize_pathOf_le [name] loc) hlen)
  | tried hlit =>
    rw [literal?_rootComponent hslash hlit, Place.path_at, hchild]
    exact .inl hlen
  | literal hlit _ hp =>
    rw [literal?_rootComponent hslash hlit, Place.path_at, hchild] at hp
    exact hnext hp
  | dots hdots _ _ _ hm =>
    rw [(matches_rootComponent_iff hslash).mp hm] at hdots
    exact absurd hdots (by simp [hhere, hup])
  | @entry _ _ _ found text entry _ _ _ _ hlist hmem hgoes hp =>
    obtain rfl := Except.ok.inj (hl.symm.trans hlist)
    obtain ⟨hm, rfl⟩ := hgoes.of_not_isRecursive (not_isRecursive_rootComponent name)
    obtain rfl := (matches_rootComponent_iff hslash).mp hm
    obtain rfl := Option.some.inj (hdir.symm.trans (FileTree.mem_entriesIn.mp hmem))
    rw [below_directory hdir hlen] at hp
    exact hnext hp

end

end Glob

/-- Two failures of one kind, whatever they say of it. -/
inductive Failure.SameKind : Failure → Failure → Prop where
  | invalidRoot (root other) : SameKind (.invalidRoot root) (.invalidRoot other)
  | invalidPattern (pattern other problem problem') :
      SameKind (.invalidPattern pattern problem) (.invalidPattern other problem')
  | unlistable (pattern other problem problem') :
      SameKind (.unlistable pattern problem) (.unlistable other problem')
  | outsideRoot (path root path' root') :
      SameKind (.outsideRoot path root) (.outsideRoot path' root')
  | unreadable (path path' cause cause') :
      SameKind (.unreadable path cause) (.unreadable path' cause')
  | unwritable (path path' cause cause') :
      SameKind (.unwritable path cause) (.unwritable path' cause')
  | sharedId (contentId other paths paths') :
      SameKind (.sharedId contentId paths) (.sharedId other paths')

theorem Failure.SameKind.refl (e : Failure) : e.SameKind e := by
  cases e <;> constructor

namespace Selection

open Glob

/-- No path that a pattern's walk under a root looks up is too long. -/
def StaysShort (t : FileTree) (root : Path) (pattern : String) : Prop :=
  ∀ route, Route.parse (underRoot root pattern) = .ok route →
    ∀ p, LooksUp t route.onlyDirectories (.at t ⟨"/"⟩) route.components p →
      p.text.utf8ByteSize < FileTree.maxPathBytes

/-- The file that a trail leads to. -/
def fileBehind (above : Location) (trail : List String) : ResolvedFile :=
  ⟨behind above trail, "/".intercalate (plain trail).reverse⟩

/-- Two steps come upon the same, each below its own directory. -/
inductive StepAlike (a b : Location) : Step → Step → Prop where
  | nothing (pattern) : StepAlike a b (.nothing pattern) (.nothing pattern)
  | found {trail} : Fits a trail → Fits b trail →
      StepAlike a b (.found (fileBehind a trail)) (.found (fileBehind b trail))

/-- Two files that stand at the same place below their directories. -/
def FileAlike (a b : Location) (file other : ResolvedFile) : Prop :=
  ∃ trail, Fits a trail ∧ Fits b trail ∧ plain trail ≠ [] ∧ file = fileBehind a trail ∧
    other = fileBehind b trail

section

variable {t u : FileTree} {a b : Location} {root other : Path} {pattern : String}

/-- What a pattern says under any root: the components that a walk goes by. -/
def ComponentsOf (pattern : String) (comps : List Pattern) : Prop :=
  comps.map Pattern.text = withoutFinalSlash (Text.piecesOf '/' (relative pattern)) ∧
    ∀ c ∈ comps, c.IsComponent

/-- Whether a pattern ends in a slash. -/
def endsInSlash (pattern : String) : Bool :=
  (Text.piecesOf '/' (relative pattern)).getLast? == some ""

theorem parse_root_iff (hroot : IsRoot t root a) {route : Route} :
    Route.parse (underRoot root pattern) = .ok route ↔ ∃ comps, ComponentsOf pattern comps ∧
      route = ⟨a.reverse.map rootComponent ++ collapse comps, endsInSlash pattern⟩ := by
  rw [parse_underRoot hroot]
  simp only [ComponentsOf, and_assoc, endsInSlash]

/-- Only what a pattern's own components look up can be too long, the root's path is not. -/
theorem staysShort_iff (hroot : IsRoot t root a) : StaysShort t root pattern ↔
    ∀ comps, ComponentsOf pattern comps →
      ∀ p, LooksUp t (endsInSlash pattern) (.at t root) (collapse comps) p →
        p.text.utf8ByteSize < FileTree.maxPathBytes := by
  constructor
  · intro h comps hcomps p hp
    exact h _ ((parse_root_iff hroot).mpr ⟨comps, hcomps, rfl⟩) p (hp.of_root hroot)
  · intro h route hr p hp
    obtain ⟨comps, hcomps, rfl⟩ := (parse_root_iff hroot).mp hr
    exact (hp.under_root hroot).elim id (h comps hcomps p)

/-- The order of paths, told by their trails. -/
def trailLe (x y : List String) : Bool :=
  partsLe ((plain x).reverse.map .name) ((plain y).reverse.map .name)

theorem pathsOf_of_expand (hroot : IsRoot t root a) {comps : List Pattern}
    (hcomps : ComponentsOf pattern comps) {trails : List (List String)}
    (htrails : ∀ x ∈ trails, IsTrail x)
    (h : expand t (endsInSlash pattern) (.at t root) (collapse comps) =
      trails.map fun x => .ok (behind a x)) :
    pathsOf t root pattern = .ok ((trails.mergeSort trailLe).map (behind a)) := by
  have ha : ∀ n ∈ a, IsEntryName n := fun n => FileTree.isEntryName_of_mem hroot.isDirectory
  refine (pathsOf_root_eq_ok_iff hroot).mpr
    ⟨comps, trails.map (behind a), hcomps.1, hcomps.2, ?_, ?_⟩
  · rw [List.map_map]
    exact h
  · exact List.map_mergeSort fun x hx y hy => (le_behind ha (htrails x hx) (htrails y hy)).symm

theorem pathsOf_of_invalid (hroot : IsRoot t root a)
    (h : ¬∃ comps, ComponentsOf pattern comps) :
    ∃ problem, pathsOf t root pattern = .error (.invalidPattern pattern problem) := by
  cases hr : Route.parse (underRoot root pattern) with
  | error problem =>
    refine ⟨problem, ?_⟩
    rw [pathsOf, hr]
    rfl
  | ok route =>
    obtain ⟨comps, hcomps, _⟩ := (parse_root_iff hroot).mp hr
    exact absurd ⟨comps, hcomps⟩ h

theorem at_root (hroot : IsRoot t root a) : Place.at t root = ⟨behind a [], true⟩ := by
  rw [Place.at, FileTree.isDirectory_of_get? hroot.spells hroot.isDirectory hroot.short,
    hroot.eq_pathOf]
  rfl

/-- A pattern finds the same under both roots, or is refused under both. -/
theorem pathsOf_alike (h : t.IsCopy a u b) (hroot : IsRoot t root a) (hother : IsRoot u other b)
    (hp : StaysDown pattern) (ht : StaysShort t root pattern) (hu : StaysShort u other pattern) :
    (∃ problem problem', pathsOf t root pattern = .error (.invalidPattern pattern problem) ∧
      pathsOf u other pattern = .error (.invalidPattern pattern problem')) ∨
    ∃ trails : List (List String), (∀ x ∈ trails, Fits a x ∧ Fits b x) ∧
      pathsOf t root pattern = .ok (trails.map (behind a)) ∧
      pathsOf u other pattern = .ok (trails.map (behind b)) := by
  by_cases hvalid : ∃ comps, ComponentsOf pattern comps
  · obtain ⟨comps, hcomps⟩ := hvalid
    have hdown : ∀ c ∈ collapse comps, c.IsDownward := fun c hc =>
      have ⟨hcomp, hmem⟩ := isComponent_of_mem_collapse hcomps.1 hcomps.2 hc
      hp.isDownward hcomp hmem
    have ht := (staysShort_iff hroot).mp ht comps hcomps
    have hu := (staysShort_iff hother).mp hu comps hcomps
    rw [at_root hroot] at ht
    rw [at_root hother] at hu
    obtain ⟨trails, hfits, hfound, hfound'⟩ :=
      expand_alike h [] true (collapse comps) isTrail_nil (fun _ => h.isDirectory) hdown ht hu
    have htrails : ∀ x ∈ trails, IsTrail x := fun x hx => (hfits x hx).1.toIsTrail
    refine .inr ⟨trails.mergeSort trailLe, fun x hx => hfits x (List.mem_mergeSort.mp hx), ?_, ?_⟩
    · exact pathsOf_of_expand hroot hcomps htrails (at_root hroot ▸ hfound)
    · exact pathsOf_of_expand hother hcomps htrails (at_root hother ▸ hfound')
  · obtain ⟨problem, hpaths⟩ := pathsOf_of_invalid hroot hvalid
    obtain ⟨problem', hpaths'⟩ := pathsOf_of_invalid hother hvalid
    exact .inl ⟨problem, problem', hpaths, hpaths'⟩

theorem filesOf_behind (ha : ∀ n ∈ a, IsEntryName n) (hroot : root.Spells a)
    {trails : List (List String)} (htrails : ∀ x ∈ trails, IsTrail x) :
    filesOf root (trails.map (behind a)) = (trails.map (fileBehind a), none) := by
  refine filesOf_eq_none_iff.mpr ⟨by rw [List.map_map]; rfl, fun f hf => ?_⟩
  obtain ⟨trail, htrail, rfl⟩ := List.mem_map.mp hf
  exact relativePath_behind ha (htrails trail htrail) hroot

theorem stepsOf_behind (ha : ∀ n ∈ a, IsEntryName n) (hroot : root.Spells a)
    {trails : List (List String)} (htrails : ∀ x ∈ trails, IsTrail x)
    (h : pathsOf t root pattern = .ok (trails.map (behind a))) :
    stepsOf t root pattern = (if trails = [] then [.nothing pattern]
      else trails.map fun x => .found (fileBehind a x), none) := by
  rw [stepsOf, h]
  cases trails with
  | nil => rfl
  | cons x trails =>
    have hfiles := filesOf_behind ha hroot htrails
    rw [List.map_cons] at hfiles ⊢
    simp only [hfiles, List.map_map]
    rfl

/-- What a run comes upon under both roots, or how it fails under both. -/
def SurveysAlike (a b : Location) (survey other : List Step × Option Failure) : Prop :=
  (∃ e e', survey.2 = some e ∧ other.2 = some e' ∧ e.SameKind e') ∨
    survey.2 = none ∧ other.2 = none ∧ List.Forall₂ (StepAlike a b) survey.1 other.1

theorem stepsOf_alike (h : t.IsCopy a u b) (hroot : IsRoot t root a) (hother : IsRoot u other b)
    (hp : StaysDown pattern) (ht : StaysShort t root pattern) (hu : StaysShort u other pattern) :
    SurveysAlike a b (stepsOf t root pattern) (stepsOf u other pattern) := by
  cases pathsOf_alike h hroot hother hp ht hu with
  | inl hfail =>
    obtain ⟨problem, problem', hpaths, hpaths'⟩ := hfail
    rw [stepsOf, stepsOf, hpaths, hpaths']
    exact .inl ⟨_, _, rfl, rfl, .invalidPattern ..⟩
  | inr hfound =>
    obtain ⟨trails, hfits, hpaths, hpaths'⟩ := hfound
    have htrails : ∀ x ∈ trails, IsTrail x := fun x hx => (hfits x hx).1.toIsTrail
    rw [stepsOf_behind h.isEntryName hroot.spells htrails hpaths,
      stepsOf_behind h.symm.isEntryName hother.spells htrails hpaths']
    refine .inr ⟨rfl, rfl, ?_⟩
    dsimp only
    split
    · exact .cons (.nothing pattern) .nil
    · rw [List.forall₂_map_left_iff, List.forall₂_map_right_iff, List.forall₂_same]
      exact fun x hx => .found (hfits x hx).1 (hfits x hx).2

theorem survey_alike (h : t.IsCopy a u b) (hroot : IsRoot t root a) (hother : IsRoot u other b)
    {patterns : List String} (hps : ∀ p ∈ patterns, StaysDown p)
    (ht : ∀ p ∈ patterns, StaysShort t root p) (hu : ∀ p ∈ patterns, StaysShort u other p) :
    SurveysAlike a b (survey t root patterns) (survey u other patterns) := by
  induction patterns with
  | nil => exact .inr ⟨rfl, rfl, .nil⟩
  | cons p patterns ih =>
    have hfirst := stepsOf_alike h hroot hother (hps p List.mem_cons_self) (ht p List.mem_cons_self)
      (hu p List.mem_cons_self)
    have hrest := ih (fun q hq => hps q (List.mem_cons_of_mem _ hq))
      (fun q hq => ht q (List.mem_cons_of_mem _ hq)) fun q hq => hu q (List.mem_cons_of_mem _ hq)
    rw [survey, survey]
    generalize stepsOf t root p = first at hfirst ⊢
    generalize stepsOf u other p = first' at hfirst ⊢
    obtain ⟨steps, failure⟩ := first
    obtain ⟨steps', failure'⟩ := first'
    cases hfirst with
    | inl hfail =>
      obtain ⟨e, e', rfl, rfl, hkind⟩ := hfail
      exact .inl ⟨e, e', rfl, rfl, hkind⟩
    | inr hsteps =>
      obtain ⟨rfl, rfl, hsteps⟩ := hsteps
      cases hrest with
      | inl hfail => exact .inl hfail
      | inr hmore =>
        obtain ⟨hnone, hnone', hmore⟩ := hmore
        exact .inr ⟨hnone, hnone', List.rel_append hsteps hmore⟩

/-- A file is judged by its place below the root. -/
theorem judge_alike (h : t.IsCopy a u b) {trail : List String} (ha : Fits a trail)
    (hb : Fits b trail) (exclude : List Pattern) :
    List.Forall₂ (FileAlike a b) (judge t exclude (fileBehind a trail)).selected?.toList
      (judge u exclude (fileBehind b trail)).selected?.toList := by
  have hdir : u.isDirectory (fileBehind b trail).path = t.isDirectory (fileBehind a trail).path :=
    h.isDirectory_eq ha hb
  by_cases hplain : plain trail = []
  · -- This is the directory itself.
    have hroot := spells_behind h.isEntryName ha.toIsTrail
    rw [hplain, List.nil_append] at hroot
    have hthere : t.isDirectory (fileBehind a trail).path = true :=
      FileTree.isDirectory_of_get? hroot h.isDirectory ha.short
    rw [judge, judge, hdir, hthere]
    exact .nil
  · have hside : isSidecar (fileBehind b trail).path = isSidecar (fileBehind a trail).path := by
      simp only [isSidecar, fileBehind, fileName?_behind h.isEntryName ha.toIsTrail hplain,
        fileName?_behind h.symm.isEntryName ha.toIsTrail hplain]
    have hrel : (fileBehind b trail).relPath = (fileBehind a trail).relPath := rfl
    rw [judge, judge, hdir, hside, hrel]
    split
    · exact .nil
    · cases exclude.find? (·.matches (fileBehind a trail).relPath) with
      | some p => exact .nil
      | none => exact .cons ⟨trail, ha, hb, hplain, rfl, rfl⟩ .nil

theorem selected_alike (h : t.IsCopy a u b) {steps others : List Step}
    (hsteps : List.Forall₂ (StepAlike a b) steps others) (exclude : List Pattern)
    (seen : List String) :
    List.Forall₂ (FileAlike a b) (selected t exclude seen steps)
      (selected u exclude seen others) := by
  induction hsteps generalizing seen with
  | nil => exact .nil
  | @cons step _ _ _ hstep _ ih =>
    cases hstep with
    | nothing pattern =>
      rw [selected_nothing, selected_nothing]
      exact ih seen
    | @found trail ha hb =>
      have hrel : (fileBehind b trail).relPath = (fileBehind a trail).relPath := rfl
      by_cases hmem : (fileBehind a trail).relPath ∈ seen
      · rw [selected_of_mem_seen hmem, selected_of_mem_seen (hrel ▸ hmem)]
        exact ih seen
      · rw [selected_of_not_mem_seen hmem, selected_of_not_mem_seen (hrel ▸ hmem), hrel]
        exact List.rel_append (judge_alike h ha hb exclude) (ih _)

end

end Selection

open Selection Glob in
/-- Patterns that do not go up select the same files under both roots, or fail alike. -/
theorem resolve_alike {t u : FileTree} {a b : Location} {root other : Path} (h : t.IsCopy a u b)
    (hroot : IsRoot t root a) (hother : IsRoot u other b) {patterns : List String}
    (hps : ∀ p ∈ patterns, StaysDown p) (ht : ∀ p ∈ patterns, StaysShort t root p)
    (hu : ∀ p ∈ patterns, StaysShort u other p) (exclude : List Pattern) :
    (∃ e e', resolve t root patterns exclude = .error e ∧
      resolve u other patterns exclude = .error e' ∧ e.SameKind e') ∨
    ∃ files others, resolve t root patterns exclude = .ok files ∧
      resolve u other patterns exclude = .ok others ∧
        List.Forall₂ (FileAlike a b) files others := by
  cases survey_alike h hroot hother hps ht hu with
  | inl hfail =>
    obtain ⟨e, e', he, he', hkind⟩ := hfail
    exact .inl ⟨e, e', resolve_eq_error_iff.mpr ⟨_, Prod.ext rfl he⟩,
      resolve_eq_error_iff.mpr ⟨_, Prod.ext rfl he'⟩, hkind⟩
  | inr hsteps =>
    obtain ⟨hnone, hnone', hsteps⟩ := hsteps
    exact .inr ⟨_, _, resolve_eq_ok_iff.mpr ⟨_, Prod.ext rfl hnone, rfl⟩,
      resolve_eq_ok_iff.mpr ⟨_, Prod.ext rfl hnone', rfl⟩, selected_alike h hsteps exclude []⟩

end Sidecar
