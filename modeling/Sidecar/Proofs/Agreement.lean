import Sidecar.Proofs.Selection

/-! Where no link is in the way and no path is too long, walking by a pattern finds exactly the
entries whose paths the pattern matches as a whole. -/

namespace Sidecar

/-- No link stands below a location, and every path there can be used. -/
structure FileTree.IsPlainBelow (t : FileTree) (root : Location) : Prop where
  linkFree : t.LinkFreeBelow root
  short : ∀ loc, root <:+ loc → (t.get? loc).isSome = true →
    (FileTree.pathOf loc).utf8ByteSize < FileTree.maxPathBytes

namespace FileTree

variable {t : FileTree} {loc : Location}

theorem IsPlainBelow.below (h : t.IsPlainBelow loc) (below : Location) :
    t.IsPlainBelow (below ++ loc) := by
  refine ⟨fun l target hs => ?_, fun l hs => ?_⟩
  · exact h.linkFree l target ((List.suffix_append _ _).trans hs)
  · exact h.short l ((List.suffix_append _ _).trans hs)

/-- A walk down the names of an entry's path stops at the entry. -/
theorem IsPlainBelow.walk_pathOf (h : t.IsPlainBelow loc) {e : Entry} (he : t.get? loc = some e)
    (hne : loc ≠ []) (links : Nat) :
    t.walk .target links [] (⟨pathOf loc⟩ : Path).segments = .ok loc := by
  cases loc with
  | nil => contradiction
  | cons n above =>
    have ⟨hempty, hhere, hup, _, _, hname⟩ := isEntryName_of_get? he
    have hparent := get?_parent he
    have habove : ∀ m ∈ above.reverse, m ≠ "" ∧ m ≠ "." ∧ m ≠ ".." := fun m hm =>
      have ⟨h1, h2, h3, _⟩ := isEntryName_of_mem hparent (List.mem_reverse.mp hm)
      ⟨h1, h2, h3⟩
    have hsegments : (⟨pathOf (n :: above)⟩ : Path).segments = "" :: above.reverse ++ [n] := by
      rw [segments_pathOf (by simp) fun m hm => (isEntryName_of_mem he hm).2.2.2.1]
      simp
    have hplain : Path.plain ("" :: above.reverse) = above.reverse := by
      rw [Path.plain_cons_void _ (.inl rfl), Path.plain, List.filter_eq_self]
      intro m hm
      simp [habove m hm]
    have hplace : (Path.plain ("" :: above.reverse)).reverse ++ [] = above := by
      rw [hplain, List.reverse_reverse, List.append_nil]
    have hups : ".." ∉ "" :: above.reverse := by
      intro hmem
      cases List.mem_cons.mp hmem with
      | inl h => contradiction
      | inr h => exact (habove _ h).2.2 rfl
    rw [hsegments, walk_append _ (hplace.symm ▸ hparent) hups (.inl (by simp)), hplace, walk,
      if_neg (by simp [hempty, hhere]), if_neg hup, if_neg (by simp), if_neg (Nat.not_lt.mpr hname),
      he]
    cases e with
    | directory => simp only [walk]
    | file => rfl
    | link target => exact absurd he (h.linkFree _ target (List.suffix_refl _))

/-- The path of an entry leads to it. -/
theorem IsPlainBelow.find_pathOf (h : t.IsPlainBelow loc) {e : Entry} (he : t.get? loc = some e) :
    t.find .target ⟨pathOf loc⟩ = .ok e := by
  have hspells := spells_pathOf_of_get? he
  have hlen := h.short loc (List.suffix_refl _) (by simp [he])
  have hlocate : t.locate .target ⟨pathOf loc⟩ = .ok loc := by
    by_cases hne : loc = []
    · subst hne
      exact locate_directory hspells rfl hlen
    · rw [locate_eq_walk hspells he hlen, h.walk_pathOf he hne]
  rw [find, hlocate]
  simp only [bind, Except.bind, he]

theorem IsPlainBelow.isDirectory_pathOf (h : t.IsPlainBelow loc) {e : Entry}
    (he : t.get? loc = some e) : t.isDirectory ⟨pathOf loc⟩ = e.isDirectory := by
  rw [isDirectory, h.find_pathOf he]

end FileTree

namespace Glob

variable {t : FileTree} {loc : Location} {c : Pattern} {comps : List Pattern}

open FileTree

/-- Below a plain location, going down to an entry is going to its path. -/
theorem below_pathOf (h : t.IsPlainBelow loc) {name : String} {e : Entry}
    (he : t.get? (name :: loc) = some e) :
    Place.below t (.at t ⟨pathOf loc⟩) name e = .at t ⟨pathOf (name :: loc)⟩ := by
  have hchild := child_pathOf_of_get? (get?_parent he) name
  have hdir := (h.below [name]).isDirectory_pathOf he
  have hleads : leadsToDirectory t ⟨pathOf (name :: loc)⟩ e = e.isDirectory := by
    cases e with
    | directory | file => rfl
    | link target => exact absurd he (h.linkFree _ target (List.suffix_cons _ _))
  rw [Place.below, Place.path_at, hchild, hleads, ← hdir]
  rfl

/-- A component that a walk below a directory lays along one name: it is no dots, and no wildcard
that asks for them. -/
structure Pattern.IsPlain (c : Pattern) : Prop extends c.IsComponent where
  ne_empty : c.text ≠ ""
  ne_here : c.text ≠ "."
  ne_up : c.text ≠ ".."
  not_dots : c.literal? = none → c.opensWithDot = false

/-- No `**` stands at the end or before another. -/
def Settled : List Pattern → Prop
  | [] => True
  | [c] => c.isRecursive = false
  | c :: d :: rest => (c.isRecursive = true → d.isRecursive = false) ∧ Settled (d :: rest)

theorem exists_collapse_cons {d : Pattern} (hd : d.isRecursive = false) (rest : List Pattern) :
    ∃ more, collapse (d :: rest) = d :: more := by
  cases rest with
  | nil => exact ⟨[], rfl⟩
  | cons e rest => exact ⟨collapse (e :: rest), by rw [collapse, hd]; rfl⟩

theorem settled_cons (hc : c.isRecursive = false) (h : Settled comps) : Settled (c :: comps) := by
  cases comps with
  | nil => exact hc
  | cons => exact ⟨by simp [hc], h⟩

theorem settled_collapse {comps : List Pattern}
    (h : ∀ c, comps.getLast? = some c → c.isRecursive = false) : Settled (collapse comps) := by
  fun_induction collapse comps with
  | case1 => trivial
  | case2 c => exact h c rfl
  | case3 c d rest hboth ih => exact ih (by simpa using h)
  | case4 c d rest hnot ih =>
    have ih := ih (by simpa using h)
    cases hc : c.isRecursive with
    | false => exact settled_cons hc ih
    | true =>
      have hd : d.isRecursive = false := by simpa [hc] using hnot
      obtain ⟨more, hmore⟩ := exists_collapse_cons hd rest
      rw [hmore] at ih ⊢
      exact ⟨fun _ => hd, ih⟩

theorem Settled.tail (h : Settled (c :: comps)) : Settled comps := by
  cases comps with
  | nil => trivial
  | cons => exact h.2

/-- A name that a `**` with more behind it meets is the first of those behind, or is skipped. -/
theorem namesMatch_recursive_cons {d : Pattern} {rest : List Pattern} {n : String}
    {ns : List String} (hc : c.isRecursive = true) (hd : d.isRecursive = false) :
    NamesMatch (c :: d :: rest) (n :: ns) ↔
      d.Matches n ∧ NamesMatch rest ns ∨ NamesMatch (c :: d :: rest) ns := by
  refine ⟨fun h => ?_, fun h => ?_⟩
  · cases h with
    | name hr => simp [hc] at hr
    | skip _ _ h =>
      have ⟨m, more, hcons, hm, hrest⟩ := (namesMatch_cons_iff hd).mp h
      obtain ⟨rfl, rfl⟩ := List.cons.inj hcons
      exact .inl ⟨hm, hrest⟩
    | deeper _ h => exact .inr h
  · cases h with
    | inl h => exact .skip hc (by simp) (.name hd h.1 h.2)
    | inr h => exact .deeper hc h

theorem isSome_of_append {below : Location} (h : (t.get? (below ++ loc)).isSome = true) :
    (t.get? loc).isSome = true := by
  have ⟨e, he⟩ := Option.isSome_iff_exists.mp h
  cases below with
  | nil => exact h
  | cons => rw [get?_above he (by simp)]; rfl

/-- An entry below a location whose names match components, by its path. -/
def Reached (t : FileTree) (loc : Location) (comps : List Pattern)
    (r : Except Unlistable Path) : Prop :=
  ∃ names, NamesMatch comps names ∧ (t.get? (names.reverse ++ loc)).isSome = true ∧
    r = .ok ⟨pathOf (names.reverse ++ loc)⟩

theorem reverse_cons_append (n : String) (ns : List String) (loc : Location) :
    (n :: ns).reverse ++ loc = ns.reverse ++ (n :: loc) := by
  simp

theorem reached_cons_iff {rest : List Pattern} {r : Except Unlistable Path}
    (hc : c.isRecursive = false) : Reached t loc (c :: rest) r ↔
      ∃ n e, t.get? (n :: loc) = some e ∧ c.Matches n ∧ Reached t (n :: loc) rest r := by
  refine ⟨fun ⟨names, hm, hsome, hr⟩ => ?_, fun ⟨n, _, _, hn, ns, hm, hsome, hr⟩ => ?_⟩
  · obtain ⟨n, ns, rfl, hn, hrest⟩ := (namesMatch_cons_iff hc).mp hm
    rw [reverse_cons_append] at hsome hr
    have ⟨e, he⟩ := Option.isSome_iff_exists.mp (isSome_of_append hsome)
    exact ⟨n, e, he, hn, ns, hrest, hsome, hr⟩
  · refine ⟨n :: ns, .name hc hn hm, ?_, ?_⟩
    · rwa [reverse_cons_append]
    · rwa [reverse_cons_append]

theorem reached_recursive_iff {d : Pattern} {rest : List Pattern} {r : Except Unlistable Path}
    (hc : c.isRecursive = true) (hd : d.isRecursive = false) :
    Reached t loc (c :: d :: rest) r ↔ ∃ n e, t.get? (n :: loc) = some e ∧
      (d.Matches n ∧ Reached t (n :: loc) rest r ∨ Reached t (n :: loc) (c :: d :: rest) r) := by
  refine ⟨fun ⟨names, hm, hsome, hr⟩ => ?_, fun ⟨n, _, _, h⟩ => ?_⟩
  · cases names with
    | nil => exact absurd rfl hm.ne_nil
    | cons n ns =>
      rw [reverse_cons_append] at hsome hr
      have ⟨e, he⟩ := Option.isSome_iff_exists.mp (isSome_of_append hsome)
      refine ⟨n, e, he, ?_⟩
      cases (namesMatch_recursive_cons hc hd).mp hm with
      | inl h => exact .inl ⟨h.1, ns, h.2, hsome, hr⟩
      | inr h => exact .inr ⟨ns, h, hsome, hr⟩
  · have ⟨ns, hm, hsome, hr⟩ : ∃ ns, NamesMatch (c :: d :: rest) (n :: ns) ∧
        (t.get? (ns.reverse ++ (n :: loc))).isSome = true ∧
        r = .ok ⟨pathOf (ns.reverse ++ (n :: loc))⟩ := by
      cases h with
      | inl h =>
        have ⟨hn, ns, hm, hrest⟩ := h
        exact ⟨ns, (namesMatch_recursive_cons hc hd).mpr (.inl ⟨hn, hm⟩), hrest⟩
      | inr h =>
        have ⟨ns, hm, hrest⟩ := h
        exact ⟨ns, (namesMatch_recursive_cons hc hd).mpr (.inr hm), hrest⟩
    refine ⟨n :: ns, hm, ?_, ?_⟩
    · rwa [reverse_cons_append]
    · rwa [reverse_cons_append]

theorem isDirectory_of_ne (h : t.IsPlainBelow loc) {e : Entry} (he : t.get? loc = some e)
    (hdir : t.get? loc ≠ some .directory) : (Place.at t ⟨pathOf loc⟩).isDirectory = false := by
  have hat : (Place.at t ⟨pathOf loc⟩).isDirectory = e.isDirectory := h.isDirectory_pathOf he
  rw [hat]
  cases e with
  | directory => contradiction
  | file | link => rfl

/-- Whether a literal component leads on from a location. -/
theorem leadsTo_pathOf_iff (h : t.IsPlainBelow loc) {entry : Entry}
    (hentry : t.get? loc = some entry) {name : String}
    (hname : name ≠ "" ∧ name ≠ "." ∧ name ≠ ".." ∧ '/' ∉ name.toList) :
    (Place.at t ⟨pathOf loc⟩).leadsTo t name = true ↔ (t.get? (name :: loc)).isSome = true := by
  have hchild := child_pathOf_of_get? hentry name
  rw [Place.leadsTo, if_neg (by simp [hname]), Place.path_at, hchild]
  refine ⟨fun hthere => ?_, fun hsome => ?_⟩
  · have hspells : (⟨pathOf (name :: loc)⟩ : Path).Spells (name :: loc) :=
      hchild ▸ (spells_pathOf_of_get? hentry).child hname
    apply get?_of_isThere hthere _ hspells
    intro l target hs
    cases List.suffix_cons_iff.mp hs with
    | inl heq => exact heq ▸ h.linkFree _ target (List.suffix_cons _ _)
    | inr hs =>
      refine linkFreeAlong_of_get? hentry (fun other he => ?_) l target hs
      exact h.linkFree loc other (List.suffix_refl _) (he ▸ hentry)
  · obtain ⟨e, he⟩ := Option.isSome_iff_exists.mp hsome
    have hfind : t.find .target ⟨pathOf (name :: loc)⟩ = .ok e := (h.below [name]).find_pathOf he
    rw [isThere, hfind]
    rfl

/-- A wildcard asks what stands in the directory. -/
theorem mem_entries_of_expand (h : t.IsPlainBelow loc) (hdir : t.get? loc = some .directory)
    (hwild : c.literal? = none) (hc : c.IsPlain) {rest : List Pattern}
    {r : Except Unlistable Path} :
    r ∈ expand t false (.at t ⟨pathOf loc⟩) (c :: rest) ↔ ∃ name e,
      t.get? (name :: loc) = some e ∧
      r ∈ expandInto t false (.at t ⟨pathOf loc⟩) c rest name e := by
  have hspells := spells_pathOf_of_get? hdir
  have hlen := h.short loc (List.suffix_refl _) (by simp [hdir])
  have hat : (Place.at t ⟨pathOf loc⟩).isDirectory = true := h.isDirectory_pathOf hdir
  have hdots (dots : String) :
      expandDots t false (.at t ⟨pathOf loc⟩) c rest dots = [] := by
    rw [expandDots, hc.not_dots hwild]
    rfl
  rw [expand_wildcard hwild hat (list_of_directory hspells hdir hlen), hdots, hdots,
    List.nil_append, List.nil_append, List.mem_flatMap]
  constructor
  · rintro ⟨⟨name, e⟩, hm, hr⟩
    exact ⟨name, e, mem_entriesIn.mp hm, hr⟩
  · rintro ⟨name, e, he, hr⟩
    exact ⟨(name, e), mem_entriesIn.mpr he, hr⟩

/-- One step by a component that is no `**`: to the names that it matches. -/
theorem mem_expand_cons_iff (h : t.IsPlainBelow loc) {entry : Entry}
    (hentry : t.get? loc = some entry) (hc : c.IsPlain) (hrec : c.isRecursive = false)
    {rest : List Pattern} {r : Except Unlistable Path} :
    r ∈ expand t false (.at t ⟨pathOf loc⟩) (c :: rest) ↔ ∃ n e, t.get? (n :: loc) = some e ∧
      c.Matches n ∧ r ∈ expand t false (.at t ⟨pathOf (n :: loc)⟩) rest := by
  cases hlit : c.literal? with
  | some name =>
    have hname : name ≠ "" ∧ name ≠ "." ∧ name ≠ ".." ∧ '/' ∉ name.toList :=
      hc.literal?_eq hlit ▸ ⟨hc.ne_empty, hc.ne_here, hc.ne_up, hc.slashFree⟩
    have hleads := leadsTo_pathOf_iff h hentry hname
    rw [expand_literal hlit, List.mem_ite_nil_right, hleads, Place.path_at,
      child_pathOf_of_get? hentry]
    refine ⟨fun ⟨hsome, hr⟩ => ?_, fun ⟨n, e, he, hn, hr⟩ => ?_⟩
    · have ⟨e, he⟩ := Option.isSome_iff_exists.mp hsome
      exact ⟨name, e, he, (Pattern.matches_of_literal? hlit).mpr rfl, hr⟩
    · obtain rfl := (Pattern.matches_of_literal? hlit).mp hn
      exact ⟨by simp [he], hr⟩
  | none =>
    by_cases hdir : t.get? loc = some .directory
    · rw [mem_entries_of_expand h hdir hlit hc]
      refine exists_congr fun n => exists_congr fun e => and_congr_right fun he => ?_
      unfold expandInto
      rw [hrec, below_pathOf h he, if_neg (by simp), ← Pattern.matches_iff, List.mem_ite_nil_right]
    · rw [expand_of_not_isDirectory hlit (isDirectory_of_ne h hentry hdir)]
      refine ⟨fun hr => absurd hr (by simp), fun ⟨n, e, he, _⟩ => ?_⟩
      exact absurd (get?_parent he) hdir

/-- One step by a `**`: to a name that the next component matches, or to any with the `**` kept. -/
theorem mem_expand_recursive_iff (h : t.IsPlainBelow loc) {entry : Entry}
    (hentry : t.get? loc = some entry) (hc : c.IsPlain) (hrec : c.isRecursive = true)
    {d : Pattern} {rest : List Pattern} {r : Except Unlistable Path} :
    r ∈ expand t false (.at t ⟨pathOf loc⟩) (c :: d :: rest) ↔ ∃ n e, t.get? (n :: loc) = some e ∧
      (d.Matches n ∧ r ∈ expand t false (.at t ⟨pathOf (n :: loc)⟩) rest ∨
        r ∈ expand t false (.at t ⟨pathOf (n :: loc)⟩) (c :: d :: rest)) := by
  have hlit : c.literal? = none := by
    cases hlit : c.literal? with
    | none => rfl
    | some =>
      rw [Pattern.isRecursive_of_literal? hlit] at hrec
      contradiction
  by_cases hdir : t.get? loc = some .directory
  · rw [mem_entries_of_expand h hdir hlit hc]
    refine exists_congr fun n => exists_congr fun e => and_congr_right fun he => ?_
    unfold expandInto
    rw [hrec, below_pathOf h he, if_pos rfl, List.mem_append, ← Pattern.matches_iff]
    refine or_congr ?_ ?_
    · exact List.mem_ite_nil_right
    · cases hnext : (Place.at t ⟨pathOf (n :: loc)⟩).isDirectory with
      | true => rw [if_pos rfl]
      | false => rw [expand_of_not_isDirectory hlit hnext, if_neg (by simp)]
  · rw [expand_of_not_isDirectory hlit (isDirectory_of_ne h hentry hdir)]
    refine ⟨fun hr => absurd hr (by simp), fun ⟨n, e, he, _⟩ => ?_⟩
    exact absurd (get?_parent he) hdir

theorem room_pathOf_lt (h : t.IsPlainBelow loc) {name : String} {e : Entry}
    (he : t.get? (name :: loc) = some e) :
    room ⟨pathOf (name :: loc)⟩ < room ⟨pathOf loc⟩ := by
  have hdir := get?_parent he
  have hspells := spells_pathOf_of_get? hdir
  have hlen := h.short loc (List.suffix_refl _) (by simp [hdir])
  have hlist := list_of_directory hspells hdir hlen
  rw [← child_pathOf_of_get? hdir]
  exact room_child_lt hlist (mem_entriesIn.mpr he)

/-- A walk finds the entries whose names its components match, and nothing else. -/
theorem mem_expand_iff (t : FileTree) (loc : Location) (comps : List Pattern)
    (h : t.IsPlainBelow loc) (hloc : (t.get? loc).isSome = true)
    (hcomps : ∀ c ∈ comps, c.IsPlain) (hsettled : Settled comps) (r : Except Unlistable Path) :
    r ∈ expand t false (.at t ⟨pathOf loc⟩) comps ↔ Reached t loc comps r := by
  have ⟨entry, hentry⟩ := Option.isSome_iff_exists.mp hloc
  -- Below an entry the walk has less room, whatever components are left.
  have ih {n : String} {e : Entry} (he : t.get? (n :: loc) = some e) {cs : List Pattern}
      (hcs : ∀ d ∈ cs, d.IsPlain) (hset : Settled cs) :
      r ∈ expand t false (.at t ⟨pathOf (n :: loc)⟩) cs ↔ Reached t (n :: loc) cs r :=
    have := room_pathOf_lt h he
    mem_expand_iff t (n :: loc) cs (h.below [n]) (by simp [he]) hcs hset r
  match comps with
  | [] =>
    rw [expand_nil, if_neg (by simp), List.mem_singleton]
    refine ⟨fun hr => ⟨[], .nil, hloc, hr⟩, fun ⟨names, hm, _, hr⟩ => ?_⟩
    cases hm
    exact hr
  | c :: rest =>
    have hc := hcomps c List.mem_cons_self
    have hrest : ∀ d ∈ rest, d.IsPlain := fun d hd => hcomps d (List.mem_cons_of_mem _ hd)
    cases hrec : c.isRecursive with
    | false =>
      rw [mem_expand_cons_iff h hentry hc hrec, reached_cons_iff hrec]
      refine exists_congr fun n => exists_congr fun e => and_congr_right fun he => ?_
      rw [ih he hrest hsettled.tail]
    | true =>
      match rest with
      | [] =>
        have hlast : c.isRecursive = false := hsettled
        rw [hrec] at hlast
        contradiction
      | d :: more =>
        have hmore : ∀ x ∈ more, x.IsPlain := fun x hx => hrest x (List.mem_cons_of_mem _ hx)
        rw [mem_expand_recursive_iff h hentry hc hrec, reached_recursive_iff hrec (hsettled.1 hrec)]
        refine exists_congr fun n => exists_congr fun e => and_congr_right fun he => ?_
        rw [ih he hmore hsettled.tail.tail, ih he hcomps hsettled]
  termination_by room ⟨pathOf loc⟩

theorem wholeComponents_eq {names : List String} (h : "" ∉ names) :
    wholeComponents names = names := by
  fun_induction wholeComponents names with
  | case1 | case2 => rfl
  | case3 c d rest hboth => simp [hboth.2.1] at h
  | case4 c d rest _ ih => rw [ih fun hmem => h (List.mem_cons_of_mem _ hmem)]

theorem exists_map_ok {α ε : Type} {xs : List (Except ε α)} (h : ∀ x ∈ xs, ∃ y, x = .ok y) :
    ∃ ys : List α, xs = ys.map .ok := by
  induction xs with
  | nil => exact ⟨[], rfl⟩
  | cons x xs ih =>
    have ⟨y, hy⟩ := h x List.mem_cons_self
    have ⟨ys, hys⟩ := ih fun x hx => h x (List.mem_cons_of_mem _ hx)
    exact ⟨y :: ys, by rw [hy, hys, List.map_cons]⟩

/-- The components of a pattern all name something, and none leads anywhere that the pattern as a
whole does not say. -/
structure IsOrdinary (p : String) : Prop where
  named : ∀ name ∈ Text.piecesOf '/' p, name ≠ "" ∧ name ≠ "." ∧ name ≠ ".."
  parses : ∀ name ∈ Text.piecesOf '/' p, ∃ c, Pattern.parse name = .ok c ∧
    (c.literal? = none → name.toList.head? ≠ some '.')
  last : (Text.piecesOf '/' p).getLast? ≠ some "**"

theorem head?_of_opensWithDot {c : Pattern} (hc : c.IsComponent) (h : c.opensWithDot = true) :
    c.text.toList.head? = some '.' := by
  rw [Pattern.opensWithDot, beq_iff_eq] at h
  obtain ⟨more, hmore⟩ := List.head?_eq_some_iff.mp h
  have hts := hc.tokens_eq
  rw [hmore] at hts
  obtain ⟨cs, hcs, _⟩ := tokens_eq_literal_cons hts
  rw [hcs]
  rfl

theorem IsOrdinary.exists_components {p : String} (h : IsOrdinary p) :
    ∃ comps : List Pattern, comps.map Pattern.text = Text.piecesOf '/' p ∧
      ∀ c ∈ comps, c.IsPlain := by
  have hparses : ∀ name ∈ Text.piecesOf '/' p, ∃ c : Pattern, c.text = name ∧ c.IsComponent := by
    intro name hname
    have ⟨c, hc, _⟩ := h.parses name hname
    exact ⟨c, (Pattern.parse_eq_ok_iff.mp hc).1,
      Pattern.isComponent_of_parse hc (Text.not_mem_toList_of_mem_piecesOf hname)⟩
  have ⟨comps, htext, hcomps⟩ := Glob.exists_components hparses
  refine ⟨comps, htext, fun c hc => ?_⟩
  have hmem : c.text ∈ Text.piecesOf '/' p := htext ▸ List.mem_map_of_mem hc
  have ⟨hempty, hhere, hup⟩ := h.named _ hmem
  have ⟨d, hd, hopens⟩ := h.parses _ hmem
  have hcomp := hcomps c hc
  obtain rfl := Except.ok.inj (hd.symm.trans hcomp.parsed)
  refine { hcomp with
    ne_empty := hempty
    ne_here := hhere
    ne_up := hup
    not_dots := fun hwild => ?_ }
  rw [← Bool.not_eq_true]
  exact fun ho => hopens hwild (head?_of_opensWithDot hcomp ho)

theorem IsOrdinary.settled {p : String} (h : IsOrdinary p)
    (htext : comps.map Pattern.text = Text.piecesOf '/' p) (hcomps : ∀ c ∈ comps, c.IsComponent) :
    Settled (collapse comps) := by
  apply settled_collapse
  intro c hc
  rw [← Bool.not_eq_true, (hcomps c (List.mem_of_getLast? hc)).isRecursive_iff]
  intro hstars
  apply h.last
  rw [← htext, List.getLast?_map, hc, ← hstars]
  rfl

theorem slashFree_of_isSome {names : List String}
    (h : (t.get? (names.reverse ++ loc)).isSome = true) : ∀ n ∈ names, '/' ∉ n.toList := by
  have ⟨e, he⟩ := Option.isSome_iff_exists.mp h
  intro n hn
  exact (isEntryName_of_mem he (List.mem_append_left _ (List.mem_reverse.mpr hn))).2.2.2.1

/-- What an ordinary pattern comes upon under a root. -/
theorem exists_pathsOf {t : FileTree} {root : Path} {above : Location}
    (hroot : IsRoot t root above) (hplain : t.IsPlainBelow above) {p : String}
    (hp : IsOrdinary p) : ∃ pattern paths, Pattern.parse p = .ok pattern ∧
      Selection.pathsOf t root p = .ok paths ∧ ∀ path, path ∈ paths ↔ ∃ names, names ≠ [] ∧
        pattern.Matches ("/".intercalate names) ∧
        (t.get? (names.reverse ++ above)).isSome = true ∧
        path = ⟨pathOf (names.reverse ++ above)⟩ := by
  obtain ⟨comps, htext, hcomps⟩ := hp.exists_components
  have hpieces := Text.piecesOf_ne_nil '/' p
  have hcomps_ne : comps ≠ [] := by
    intro hnil
    rw [hnil] at htext
    exact hpieces htext.symm
  have hvoid : "" ∉ Text.piecesOf '/' p := fun h => (hp.named _ h).1 rfl
  have hrelative : relative p = p := relative_eq fun h => (hp.named _ h).2.1 rfl
  have hends : (Text.piecesOf '/' p).getLast? ≠ some "" := fun h =>
    hvoid (List.mem_of_getLast? h)
  have hsettled : Settled (collapse comps) :=
    hp.settled htext fun c hc => (hcomps c hc).toIsComponent
  have hwhole : comps.map Pattern.text = wholeComponents (Text.piecesOf '/' p) := by
    rw [wholeComponents_eq hvoid, htext]
  have hmem := fun r => mem_expand_iff t above (collapse comps) hplain
    (by simp [hroot.isDirectory]) (fun c hc => hcomps c (mem_of_mem_collapse hc)) hsettled r
  obtain ⟨found, hfound⟩ : ∃ found : List Path,
      expand t false (.at t ⟨pathOf above⟩) (collapse comps) = found.map .ok :=
    exists_map_ok fun r hr => by
      obtain ⟨_, _, _, heq⟩ := (hmem r).mp hr
      exact ⟨_, heq⟩
  have hpaths : Selection.pathsOf t root p = .ok (found.mergeSort Path.le) := by
    refine (Selection.pathsOf_root_eq_ok_iff hroot).mpr ⟨comps, found, ?_, ?_, ?_, rfl⟩
    · rw [hrelative, withoutFinalSlash, if_neg hends, htext]
    · exact fun c hc => (hcomps c hc).toIsComponent
    · rw [hrelative, beq_eq_false_iff_ne.mpr hends, hroot.eq_pathOf, hfound]
  have hparse := parse_of_components hwhole fun c hc => (hcomps c hc).toIsComponent
  refine ⟨_, _, hparse, hpaths, fun path => ?_⟩
  have hin : path ∈ found.mergeSort Path.le ↔ Reached t above (collapse comps) (.ok path) := by
    rw [List.mem_mergeSort, ← hmem, hfound]
    simp
  have hmatches {names : List String} (hne : names ≠ [])
      (hsome : (t.get? (names.reverse ++ above)).isSome = true) :
      Pattern.Matches ⟨p, wholeTokens comps⟩ ("/".intercalate names) ↔
        NamesMatch (collapse comps) names := by
    rw [namesMatch_collapse]
    exact matches_iff_namesMatch hparse hwhole (fun c hc => (hcomps c hc).toIsComponent)
      (slashFree_of_isSome hsome) hne
  rw [hin]
  constructor
  · rintro ⟨names, hm, hsome, heq⟩
    have hne : names ≠ [] := by
      cases hcollapse : collapse comps with
      | nil => exact absurd hcollapse (collapse_ne_nil hcomps_ne)
      | cons c rest =>
        rw [hcollapse] at hm
        exact hm.ne_nil
    exact ⟨names, hne, (hmatches hne hsome).mpr hm, hsome, Except.ok.inj heq⟩
  · rintro ⟨names, hne, hm, hsome, heq⟩
    exact ⟨names, (hmatches hne hsome).mp hm, hsome, congrArg Except.ok heq⟩

end Glob

section

variable {t : FileTree} {root : Path} {above : Location}

open FileTree

theorem relativePath_pathOf (hroot : root.Spells above) {names : List String} {e : Entry}
    (he : t.get? (names.reverse ++ above) = some e) :
    relativePath root ⟨pathOf (names.reverse ++ above)⟩ = .ok ("/".intercalate names) :=
  (relativePath_eq_ok_iff hroot _ _).mpr ⟨names, spells_pathOf_of_get? he, rfl⟩

/-- Entries are told apart by their relative paths. -/
theorem names_inj {names more : List String} (hne : names ≠ []) (hmore : more ≠ [])
    (hn : (t.get? (names.reverse ++ above)).isSome = true)
    (hm : (t.get? (more.reverse ++ above)).isSome = true)
    (h : "/".intercalate names = "/".intercalate more) : names = more := by
  rw [← Text.piecesOf_intercalate (Glob.slashFree_of_isSome hn) hne, h,
    Text.piecesOf_intercalate (Glob.slashFree_of_isSome hm) hmore]

/-- The file that stands at names below a root. -/
def fileAt (above : Location) (names : List String) : ResolvedFile :=
  ⟨⟨pathOf (names.reverse ++ above)⟩, "/".intercalate names⟩

theorem judge_fileAt (hplain : t.IsPlainBelow above) {directories : List String} {name : String}
    {e : Entry} (he : t.get? (name :: (directories.reverse ++ above)) = some e) :
    Selection.judge t [] (fileAt above (directories ++ [name])) =
        .selected (fileAt above (directories ++ [name])) ↔
      e ≠ .directory ∧ ¬sidecarSuffix.toList <:+ name.toList := by
  have hloc : (directories ++ [name]).reverse ++ above =
      name :: (directories.reverse ++ above) := by
    simp
  have hpath : (fileAt above (directories ++ [name])).path =
      ⟨pathOf (name :: (directories.reverse ++ above))⟩ := by
    rw [fileAt, hloc]
  have hbelow : t.IsPlainBelow (name :: (directories.reverse ++ above)) :=
    hplain.below (name :: directories.reverse)
  have hkind : e.isDirectory = false ↔ e ≠ .directory := by cases e <;> simp [Entry.isDirectory]
  rw [Selection.judge_eq_selected_iff, hpath, hbelow.isDirectory_pathOf he, hkind,
    ← Bool.not_eq_true (isSidecar _), isSidecar_iff (spells_pathOf_of_get? he)]
  simp

/-- An ordinary pattern comes upon the entries that it matches, and on no others. -/
theorem found_iff {p : String} {pattern : Glob.Pattern} {paths : List Path}
    {steps : List Selection.Step} (hroot : root.Spells above)
    (hpaths : Selection.pathsOf t root p = .ok paths)
    (hmem : ∀ path, path ∈ paths ↔ ∃ names, names ≠ [] ∧
      pattern.Matches ("/".intercalate names) ∧
      (t.get? (names.reverse ++ above)).isSome = true ∧ path = ⟨pathOf (names.reverse ++ above)⟩)
    (hsteps : Selection.stepsOf t root p = (steps, none)) {file : ResolvedFile} :
    .found file ∈ steps ↔ ∃ names, names ≠ [] ∧ pattern.Matches ("/".intercalate names) ∧
      (t.get? (names.reverse ++ above)).isSome = true ∧ file = fileAt above names := by
  rw [Selection.mem_stepsOf hsteps, Selection.Finds, hpaths]
  simp only [Except.ok.injEq, exists_eq_left']
  constructor
  · rintro ⟨hpath, hrel⟩
    obtain ⟨names, hne, hm, hsome, heq⟩ := (hmem _).mp hpath
    obtain ⟨e, he⟩ := Option.isSome_iff_exists.mp hsome
    refine ⟨names, hne, hm, hsome, ?_⟩
    rw [heq, relativePath_pathOf hroot he] at hrel
    cases file
    rw [fileAt, ← heq, Except.ok.inj hrel]
  · rintro ⟨names, hne, hm, hsome, heq⟩
    obtain ⟨e, he⟩ := Option.isSome_iff_exists.mp hsome
    rw [heq]
    exact ⟨(hmem _).mpr ⟨names, hne, hm, hsome, rfl⟩, relativePath_pathOf hroot he⟩

/-- Walking by an ordinary pattern selects exactly the files that the pattern matches as a whole. -/
theorem resolve_ordinary {q : Path} {p : String} (hroot : canonicalRoot t q = .ok root)
    (hspells : root.Spells above) (hplain : t.IsPlainBelow above) (hp : Glob.IsOrdinary p) :
    ∃ pattern files, Glob.Pattern.parse p = .ok pattern ∧ resolve t root [p] [] = .ok files ∧
      (files.map ResolvedFile.relPath).Nodup ∧
      ∀ relPath, relPath ∈ files.map ResolvedFile.relPath ↔ ∃ directories name e,
        t.get? (name :: (directories.reverse ++ above)) = some e ∧ e ≠ .directory ∧
        ¬sidecarSuffix.toList <:+ name.toList ∧
        relPath = "/".intercalate (directories ++ [name]) ∧ pattern.Matches relPath := by
  obtain ⟨other, hisRoot⟩ := isRoot_of_canonicalRoot hroot
  obtain rfl := hspells.unique hisRoot.spells
  obtain ⟨pattern, paths, hparse, hpaths, hmem⟩ := Glob.exists_pathsOf hisRoot hplain hp
  have hrel : ∀ path ∈ paths, ∃ relPath, relativePath root path = .ok relPath := by
    intro path hpath
    obtain ⟨names, _, _, hsome, heq⟩ := (hmem path).mp hpath
    obtain ⟨e, he⟩ := Option.isSome_iff_exists.mp hsome
    exact ⟨_, heq ▸ relativePath_pathOf hspells he⟩
  obtain ⟨steps, hsteps⟩ := Selection.stepsOf_eq_none hpaths hrel
  have hsurvey : Selection.survey t root [p] = (steps, none) := by
    simp [Selection.survey, hsteps]
  have hresolve : resolve t root [p] [] = .ok (Selection.selected t [] [] steps) :=
    resolve_eq_ok_iff.mpr ⟨steps, hsurvey, rfl⟩
  have hfound {file : ResolvedFile} : .found file ∈ steps ↔ ∃ names, names ≠ [] ∧
      pattern.Matches ("/".intercalate names) ∧
      (t.get? (names.reverse ++ above)).isSome = true ∧ file = fileAt above names :=
    found_iff hspells hpaths hmem hsteps
  refine ⟨pattern, _, hparse, hresolve, nodup_relPath_of_resolve hresolve, fun relPath => ?_⟩
  rw [List.mem_map]
  constructor
  · rintro ⟨file, hfile, hrelPath⟩
    obtain ⟨hstep, _, hjudge⟩ := Selection.judged_of_mem_selected hfile
    obtain ⟨names, hne, hm, hsome, rfl⟩ := hfound.mp hstep
    obtain ⟨directories, name, rfl⟩ : ∃ directories name, names = directories ++ [name] :=
      ⟨_, _, (List.dropLast_concat_getLast hne).symm⟩
    have hloc : (directories ++ [name]).reverse ++ above =
        name :: (directories.reverse ++ above) := by simp
    rw [hloc] at hsome
    obtain ⟨e, he⟩ := Option.isSome_iff_exists.mp hsome
    obtain ⟨hkind, hname⟩ := (judge_fileAt hplain he).mp hjudge
    exact ⟨directories, name, e, he, hkind, hname, hrelPath.symm, hrelPath ▸ hm⟩
  · rintro ⟨directories, name, e, he, hkind, hname, hrelPath, hm⟩
    have hsome : (t.get? ((directories ++ [name]).reverse ++ above)).isSome = true := by simp [he]
    have hstep := hfound.mpr ⟨directories ++ [name], by simp, hrelPath ▸ hm, hsome, rfl⟩
    refine ⟨_, Selection.mem_selected hstep (by simp) ?_ ?_, hrelPath.symm⟩
    · exact (judge_fileAt hplain he).mpr ⟨hkind, hname⟩
    · intro f hf heq
      obtain ⟨more, hmore, _, hmoreSome, rfl⟩ := hfound.mp hf
      rw [names_inj hmore (by simp) hmoreSome hsome heq]

theorem isPlainBelow_oneFile : oneFile.IsPlainBelow [] := by
  refine ⟨linkFree_oneFile.below [], fun loc _ h => ?_⟩
  by_cases hloc : loc = ["a"]
  · rw [hloc]
    decide
  · cases loc with
    | nil => decide
    | cons n above =>
      rw [oneFile, get?_put_of_ne _ hloc] at h
      contradiction

theorem isOrdinary_anyDepth : Glob.IsOrdinary "**/?" := by
  have hpieces : Text.piecesOf '/' "**/?" = ["**", "?"] := by decide
  have hstars : Glob.Pattern.parse "**" = .ok ⟨"**", [.remainder]⟩ := by cbv
  have hany : Glob.Pattern.parse "?" = .ok ⟨"?", [.anyChar]⟩ := by cbv
  refine ⟨?_, ?_, ?_⟩
  · rw [hpieces]
    decide
  · rw [hpieces]
    intro name hname
    cases List.mem_cons.mp hname with
    | inl h => exact ⟨_, h ▸ hstars, fun _ => by rw [h]; decide⟩
    | inr h =>
      have h := List.mem_singleton.mp h
      exact ⟨_, h ▸ hany, fun _ => by rw [h]; decide⟩
  · rw [hpieces]
    decide

theorem resolve_ordinary_oneFile : ∃ pattern files, Glob.Pattern.parse "**/?" = .ok pattern ∧
    resolve oneFile ⟨"/"⟩ ["**/?"] [] = .ok files ∧ (files.map ResolvedFile.relPath).Nodup ∧
    ∀ relPath, relPath ∈ files.map ResolvedFile.relPath ↔ ∃ directories name e,
      oneFile.get? (name :: (directories.reverse ++ [])) = some e ∧ e ≠ .directory ∧
      ¬sidecarSuffix.toList <:+ name.toList ∧
      relPath = "/".intercalate (directories ++ [name]) ∧ pattern.Matches relPath :=
  resolve_ordinary (q := ⟨"/"⟩) (by cbv) (show Path.parts ⟨"/"⟩ = [.root] by decide)
    isPlainBelow_oneFile isOrdinary_anyDepth

end

/-! The bound on paths is needed: a literal component does not lead to a file whose path is too
long, though a wildcard would find it in the listing of its directory. -/

section

open FileTree Glob

/-- A directory in a directory, and so on to some depth. -/
def nested : (depth : Nat) → { t : FileTree // t.LinkFree ∧
    t.get? (List.replicate depth "d") = some .directory ∧
    ∀ more, depth < more → t.get? (List.replicate more "d") = none }
  | 0 => ⟨.empty, linkFree_empty, rfl, fun more h => by
      cases more with
      | zero => contradiction
      | succ => rfl⟩
  | depth + 1 =>
    let ⟨t, hfree, hdir, hnone⟩ := nested depth
    have accepts : t.Accepts (List.replicate (depth + 1) "d") :=
      ⟨hdir, by decide, by
        rw [← List.replicate_succ, hnone _ (Nat.lt_succ_self _)]
        simp⟩
    ⟨t.put _ .directory accepts, hfree.put (by simp) accepts, get?_put_self .., fun more h => by
      have hne : List.replicate more "d" ≠ List.replicate (depth + 1) "d" := fun heq => by
        have := congrArg List.length heq
        simp only [List.length_replicate] at this
        omega
      rw [get?_put_of_ne accepts hne]
      exact hnone more (Nat.lt_of_succ_lt h)⟩

theorem utf8ByteSize_nested (depth : Nat) :
    (pathOf (List.replicate (depth + 1) "d")).utf8ByteSize = 2 * (depth + 1) := by
  induction depth with
  | zero => decide
  | succ depth ih =>
    have hd : "d".utf8ByteSize = 1 := by decide
    have hslash : "/".utf8ByteSize = 1 := by decide
    rw [List.replicate_succ, pathOf_cons "d" (by simp), String.utf8ByteSize_append,
      String.utf8ByteSize_append, ih, hd, hslash]
    omega

theorem isThere_of_long {t : FileTree} {p : Path} (h : maxPathBytes ≤ p.text.utf8ByteSize) :
    isThere t p = false := by
  have hfind (ending : Ending) : (t.find ending p).isOk = false := by
    cases hf : t.find ending p with
    | error => rfl
    | ok e =>
      have ⟨_, hl, _⟩ := find_eq_ok hf
      exact absurd (utf8ByteSize_lt_of_locate hl) (Nat.not_lt.mpr h)
  rw [isThere, hfind, hfind]
  rfl

theorem parse_d : Pattern.parse "d" = .ok ⟨"d", [.literal 'd']⟩ := by
  cbv

theorem isOrdinary_d : IsOrdinary "d" := by
  have hpieces : Text.piecesOf '/' "d" = ["d"] := by decide
  refine ⟨?_, ?_, ?_⟩
  · rw [hpieces]
    decide
  · rw [hpieces]
    intro name hname
    rw [List.mem_singleton.mp hname]
    exact ⟨_, parse_d, fun _ => by decide⟩
  · rw [hpieces]
    decide

section

variable (depth : Nat)

theorem accepts_nested : (nested depth).val.Accepts ("d" :: List.replicate depth "d") := by
  have ⟨_, hdir, hnone⟩ := (nested depth).property
  refine ⟨hdir, by decide, ?_⟩
  rw [← List.replicate_succ, hnone _ (Nat.lt_succ_self _)]
  simp

theorem nested_succ : (nested (depth + 1)).val =
    (nested depth).val.put ("d" :: List.replicate depth "d") .directory (accepts_nested depth) := by
  conv_lhs => enter [1]; whnf
  split
  next t _ _ _ heq =>
    obtain rfl : t = (nested depth).val := by rw [heq]
    rfl

/-- A file `d` at the bottom of nested directories. -/
def deepTree : FileTree :=
  (nested depth).val.put ("d" :: List.replicate depth "d") (.file .empty) (accepts_nested depth)

/-- The innermost directory. -/
def deepRoot : Path :=
  ⟨pathOf (List.replicate depth "d")⟩

theorem linkFree_deepTree : (deepTree depth).LinkFree :=
  (nested depth).property.1.put (by simp) _

theorem get?_deepTree :
    (deepTree depth).get? ("d" :: List.replicate depth "d") = some (.file .empty) :=
  get?_put_self ..

theorem get?_deepTree_root :
    (deepTree depth).get? (List.replicate depth "d") = some .directory :=
  get?_parent (get?_deepTree depth)

variable {depth}

theorem isRoot_deepRoot (hshort : 2 * (depth + 1) < maxPathBytes) :
    IsRoot (deepTree (depth + 1)) (deepRoot (depth + 1)) (List.replicate (depth + 1) "d") :=
  ⟨rfl, get?_deepTree_root _, utf8ByteSize_nested depth ▸ hshort⟩

/-- A literal component does not lead to a file whose path is too long. -/
theorem resolve_deepTree (hshort : 2 * (depth + 1) < maxPathBytes)
    (hlong : maxPathBytes ≤ 2 * (depth + 2)) :
    resolve (deepTree (depth + 1)) (deepRoot (depth + 1)) ["d"] [] = .ok [] := by
  have hchild : ((deepRoot (depth + 1)).child "d").text.utf8ByteSize = 2 * (depth + 2) := by
    rw [deepRoot, child_pathOf_of_get? (get?_deepTree_root (depth + 1)), ← List.replicate_succ]
    exact utf8ByteSize_nested (depth + 1)
  have hexpand : expand (deepTree (depth + 1)) false (.at (deepTree (depth + 1))
      (deepRoot (depth + 1))) [⟨"d", [.literal 'd']⟩] = [] := by
    have hliteral : Pattern.literal? ⟨"d", [.literal 'd']⟩ = some "d" := by decide
    have hleads : (Place.at (deepTree (depth + 1)) (deepRoot (depth + 1))).leadsTo
        (deepTree (depth + 1)) "d" = false := by
      rw [Place.leadsTo, if_neg (by decide), Place.path_at, isThere_of_long (hchild ▸ hlong)]
    rw [expand_literal hliteral, hleads]
    rfl
  have hpaths : Selection.pathsOf (deepTree (depth + 1)) (deepRoot (depth + 1)) "d" = .ok [] := by
    refine (Selection.pathsOf_root_eq_ok_iff (isRoot_deepRoot hshort)).mpr
      ⟨[⟨"d", [.literal 'd']⟩], [], by decide, ?_, hexpand, by simp⟩
    intro c hc
    rw [List.mem_singleton.mp hc]
    exact ⟨parse_d, by decide⟩
  refine resolve_eq_ok_iff.mpr ⟨[.nothing "d"], ?_, rfl⟩
  simp [Selection.survey, Selection.stepsOf, hpaths]

theorem not_agrees_deepTree (hshort : 2 * (depth + 1) < maxPathBytes)
    (hlong : maxPathBytes ≤ 2 * (depth + 2)) :
    ¬∃ pattern files, Pattern.parse "d" = .ok pattern ∧
      resolve (deepTree (depth + 1)) (deepRoot (depth + 1)) ["d"] [] = .ok files ∧
      ∀ relPath, relPath ∈ files.map ResolvedFile.relPath ↔ ∃ directories name e,
        (deepTree (depth + 1)).get?
          (name :: (directories.reverse ++ List.replicate (depth + 1) "d")) = some e ∧
        e ≠ .directory ∧ ¬sidecarSuffix.toList <:+ name.toList ∧
        relPath = "/".intercalate (directories ++ [name]) ∧ pattern.Matches relPath := by
  intro ⟨pattern, files, hparse, hfiles, hmem⟩
  obtain rfl := Except.ok.inj ((resolve_deepTree hshort hlong).symm.trans hfiles)
  obtain rfl := Except.ok.inj (parse_d.symm.trans hparse)
  have hmatches : Pattern.Matches ⟨"d", [.literal 'd']⟩ "d" := .literal .nil
  have hin := (hmem "d").mpr
    ⟨[], "d", _, get?_deepTree (depth + 1), by simp, by decide, by decide, hmatches⟩
  contradiction

end

/-- Without the bound the agreement fails: a file whose path has 4096 bytes is matched by its name
and not selected by it. -/
theorem not_resolve_ordinary_deepTree : IsOrdinary "d" ∧
    canonicalRoot (deepTree 2047) (deepRoot 2047) = .ok (deepRoot 2047) ∧
    (deepRoot 2047).Spells (List.replicate 2047 "d") ∧
    (deepTree 2047).LinkFreeBelow (List.replicate 2047 "d") ∧
    ¬∃ pattern files, Pattern.parse "d" = .ok pattern ∧
      resolve (deepTree 2047) (deepRoot 2047) ["d"] [] = .ok files ∧
      ∀ relPath, relPath ∈ files.map ResolvedFile.relPath ↔ ∃ directories name e,
        (deepTree 2047).get? (name :: (directories.reverse ++ List.replicate 2047 "d")) = some e ∧
        e ≠ .directory ∧ ¬sidecarSuffix.toList <:+ name.toList ∧
        relPath = "/".intercalate (directories ++ [name]) ∧ pattern.Matches relPath := by
  have hroot : IsRoot (deepTree 2047) (deepRoot 2047) (List.replicate 2047 "d") :=
    isRoot_deepRoot (by decide)
  exact ⟨isOrdinary_d, hroot.canonicalRoot_eq, hroot.spells, (linkFree_deepTree 2047).below _,
    not_agrees_deepTree (by decide) (by decide)⟩

end

end Sidecar
