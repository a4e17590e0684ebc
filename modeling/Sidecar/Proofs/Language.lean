import Sidecar.Proofs.Components

/-! The language of a pattern, said on names: its components are laid along the names of a path, one
for each name, and `**` over any number of them. Matching the whole pattern against the whole path
comes to the same. -/

namespace Sidecar.Glob

/-- A pattern that stands between two slashes. -/
structure Pattern.IsComponent (c : Pattern) : Prop where
  parsed : Pattern.parse c.text = .ok c
  slashFree : '/' ∉ c.text.toList

theorem Pattern.parse_eq_ok_iff {text : String} {c : Pattern} :
    Pattern.parse text = .ok c ↔ c.text = text ∧ Glob.tokens true text.toList = .ok c.tokens := by
  rw [Pattern.parse]
  constructor
  · intro h
    obtain ⟨ts, hts, rfl⟩ := exists_of_map_eq_ok h
    exact ⟨rfl, hts⟩
  · rintro ⟨rfl, hts⟩
    rw [hts]
    rfl

namespace Pattern

theorem IsComponent.tokens_eq {c : Pattern} (h : c.IsComponent) :
    Glob.tokens true c.text.toList = .ok c.tokens :=
  (parse_eq_ok_iff.mp h.parsed).2

theorem isComponent_of_parse {text : String} {c : Pattern} (h : Pattern.parse text = .ok c)
    (hslash : '/' ∉ text.toList) : c.IsComponent := by
  obtain ⟨rfl, _⟩ := parse_eq_ok_iff.mp h
  exact ⟨h, hslash⟩

theorem IsComponent.tokens_of_stars {c : Pattern} (h : c.IsComponent) (hs : c.text = "**") :
    c.tokens = [.remainder] := by
  have hts := h.tokens_eq
  rw [hs, show "**".toList = ['*', '*'] from rfl, Glob.tokens] at hts
  exact (Except.ok.inj hts).symm

theorem IsComponent.plain {c : Pattern} (h : c.IsComponent) (hs : c.text ≠ "**") :
    ∀ tok ∈ c.tokens, tok.Plain := by
  refine tokens_plain h.tokens_eq h.slashFree (.inr fun htext => hs ?_)
  rw [← String.toList_inj]
  exact htext

theorem IsComponent.isRecursive_iff {c : Pattern} (h : c.IsComponent) :
    c.isRecursive = true ↔ c.text = "**" := by
  constructor
  · intro hr
    refine Decidable.byContradiction fun hs => ?_
    have ⟨tok, htok, hkind⟩ := List.any_eq_true.mp hr
    have hplain := h.plain hs tok htok
    cases tok <;> first | exact hplain.elim | contradiction
  · intro hs
    rw [isRecursive, h.tokens_of_stars hs]
    rfl

theorem IsComponent.plain_of_not_isRecursive {c : Pattern} (h : c.IsComponent)
    (hr : c.isRecursive = false) : ∀ tok ∈ c.tokens, tok.Plain :=
  h.plain fun hs => by
    rw [h.isRecursive_iff.mpr hs] at hr
    contradiction

theorem tokens_of_literal? {c : Pattern} {name : String} (h : c.literal? = some name) :
    c.tokens = name.toList.map .literal := by
  obtain ⟨ls, hls, rfl⟩ := Option.map_eq_some_iff.mp h
  rw [String.toList_ofList]
  clear h
  generalize c.tokens = ts at hls
  induction ts generalizing ls with
  | nil => simp_all
  | cons t ts ih =>
    rw [List.mapM_cons] at hls
    have ⟨l, hl, hls⟩ := Option.bind_eq_some_iff.mp hls
    have ⟨more, hmore, hls⟩ := Option.bind_eq_some_iff.mp hls
    obtain rfl := Option.some.inj hls
    rw [List.map_cons, ← ih more hmore]
    cases t <;> simp_all

theorem IsComponent.literal?_eq {c : Pattern} (h : c.IsComponent) {name : String}
    (hl : c.literal? = some name) : name = c.text := by
  have hts := h.tokens_eq
  rw [tokens_of_literal? hl] at hts
  exact (String.toList_inj.mp (eq_of_tokens_literal hts)).symm

theorem matches_of_literal? {c : Pattern} {name text : String} (h : c.literal? = some name) :
    c.Matches text ↔ text = name := by
  rw [Pattern.Matches, tokens_of_literal? h, matches_literal_iff, String.toList_inj]

/-- `.*` is the one wildcard that a lone dot matches. -/
theorem IsComponent.text_of_matches_dot {c : Pattern} (h : c.IsComponent)
    (hwild : c.literal? = none) (hopens : c.opensWithDot = true) (hdot : c.Matches ".") :
    c.text = ".*" := by
  have hts := h.tokens_eq
  rw [opensWithDot, beq_iff_eq] at hopens
  obtain ⟨more, hmore⟩ := List.head?_eq_some_iff.mp hopens
  have hmatch : Glob.Matches more [] := by
    rw [Pattern.Matches, hmore] at hdot
    cases hdot with
    | literal hm => exact hm
  rw [hmore] at hts
  obtain ⟨cs, hcs, hrest⟩ := tokens_eq_literal_cons hts
  have htext : c.text = String.ofList ('.' :: cs) := by rw [← hcs, String.ofList_toList]
  rcases eq_of_tokens_matches_nil hrest hmatch with rfl | rfl
  · have hnil : more = [] := by
      have := hrest
      rw [Glob.tokens] at this
      exact (Except.ok.inj this).symm
    rw [literal?, hmore, hnil] at hwild
    simp at hwild
  · exact htext

theorem isRecursive_of_literal? {c : Pattern} {name : String} (h : c.literal? = some name) :
    c.isRecursive = false := by
  rw [isRecursive, tokens_of_literal? h]
  simp

end Pattern

/-- The components of a pattern laid along the names of a path. -/
inductive NamesMatch : List Pattern → List String → Prop where
  | nil : NamesMatch [] []
  | name {c n cs ns} : c.isRecursive = false → c.Matches n → NamesMatch cs ns →
      NamesMatch (c :: cs) (n :: ns)
  | skip {c cs ns} : c.isRecursive = true → cs ≠ [] → NamesMatch cs ns → NamesMatch (c :: cs) ns
  | deeper {c cs n ns} : c.isRecursive = true → NamesMatch (c :: cs) ns →
      NamesMatch (c :: cs) (n :: ns)
  | last {c n} : c.isRecursive = true → NamesMatch [c] [n]

theorem NamesMatch.ne_nil {c : Pattern} {cs : List Pattern} {ns : List String}
    (h : NamesMatch (c :: cs) ns) : ns ≠ [] := by
  generalize hcs : c :: cs = comps at h
  induction h generalizing c cs with
  | nil => contradiction
  | @skip _ more _ _ hne _ ih =>
    cases more with
    | nil => contradiction
    | cons d rest => exact ih rfl
  | name | deeper | last => simp

theorem namesMatch_cons_iff {c : Pattern} {cs : List Pattern} {ns : List String}
    (hr : c.isRecursive = false) :
    NamesMatch (c :: cs) ns ↔ ∃ n more, ns = n :: more ∧ c.Matches n ∧ NamesMatch cs more := by
  constructor
  · intro h
    cases h with
    | name _ hm h => exact ⟨_, _, rfl, hm, h⟩
    | skip h | deeper h | last h => simp [hr] at h
  · rintro ⟨n, more, rfl, hm, h⟩
    exact .name hr hm h

/-- Every component but `**` takes a name for itself. -/
theorem NamesMatch.exists_matches {comps : List Pattern} {names : List String}
    (h : NamesMatch comps names) {c : Pattern} (hc : c ∈ comps) (hr : c.isRecursive = false) :
    ∃ n ∈ names, c.Matches n := by
  induction h with
  | nil => contradiction
  | @name d n cs ns _ hm _ ih =>
    cases List.mem_cons.mp hc with
    | inl heq => exact ⟨n, List.mem_cons_self, heq ▸ hm⟩
    | inr hc =>
      have ⟨m, hmem, hmatch⟩ := ih hc
      exact ⟨m, List.mem_cons_of_mem _ hmem, hmatch⟩
  | skip hd _ _ ih =>
    cases List.mem_cons.mp hc with
    | inl heq =>
      rw [heq, hd] at hr
      contradiction
    | inr hc => exact ih hc
  | deeper _ _ ih =>
    have ⟨m, hmem, hmatch⟩ := ih hc
    exact ⟨m, List.mem_cons_of_mem _ hmem, hmatch⟩
  | last hd =>
    rw [List.mem_singleton.mp hc, hd] at hr
    contradiction

/-- `**` before more of a pattern covers some leading names. -/
theorem namesMatch_recursive_iff {c : Pattern} {cs : List Pattern} {ns : List String}
    (hr : c.isRecursive = true) (hne : cs ≠ []) :
    NamesMatch (c :: cs) ns ↔ ∃ above below, ns = above ++ below ∧ NamesMatch cs below := by
  constructor
  · intro h
    generalize hcs : c :: cs = comps at h
    induction h with
    | nil => contradiction
    | name hr' => simp_all
    | @skip _ _ ns _ _ h =>
      obtain ⟨rfl, rfl⟩ := List.cons.inj hcs
      exact ⟨[], ns, rfl, h⟩
    | @deeper _ _ n _ _ _ ih =>
      obtain ⟨above, below, rfl, h⟩ := ih hcs
      exact ⟨n :: above, below, rfl, h⟩
    | last => simp_all
  · rintro ⟨above, below, rfl, h⟩
    induction above with
    | nil => exact .skip hr hne h
    | cons n above ih => exact .deeper hr ih

theorem namesMatch_last_iff {c : Pattern} {ns : List String} (hr : c.isRecursive = true) :
    NamesMatch [c] ns ↔ ns ≠ [] := by
  constructor
  · exact NamesMatch.ne_nil
  · intro hne
    induction ns with
    | nil => contradiction
    | cons n ns ih =>
      cases ns with
      | nil => exact .last hr
      | cons m ms => exact .deeper hr (ih (by simp))

/-- The components of a pattern that is matched as a whole: a slash behind a final `**` says
nothing. -/
def wholeComponents : List String → List String
  | [] => []
  | [c] => [c]
  | c :: d :: rest =>
    if c = "**" ∧ d = "" ∧ rest = [] then [c] else c :: wholeComponents (d :: rest)

/-- What components say with a slash between each two. -/
def wholeTokens : List Pattern → List Token
  | [] => []
  | [c] => c.tokens
  | c :: rest =>
    (if c.isRecursive then [.directories] else c.tokens ++ [.literal '/']) ++ wholeTokens rest

theorem wholeTokens_cons {c : Pattern} {rest : List Pattern} (hne : rest ≠ []) :
    wholeTokens (c :: rest) =
      (if c.isRecursive then [.directories] else c.tokens ++ [.literal '/']) ++
        wholeTokens rest := by
  cases rest with
  | nil => contradiction
  | cons => rfl

theorem wholeComponents_ne_nil {names : List String} (h : names ≠ []) :
    wholeComponents names ≠ [] := by
  fun_cases wholeComponents names <;> simp_all

theorem tokens_joined {names : List String} {comps : List Pattern}
    (htext : comps.map Pattern.text = wholeComponents names)
    (hcomps : ∀ c ∈ comps, c.IsComponent) (hne : names ≠ []) :
    tokens true (Text.joined ['/'] (names.map String.toList)) = .ok (wholeTokens comps) := by
  fun_induction wholeComponents names generalizing comps with
  | case1 => contradiction
  | case2 name =>
    obtain ⟨c, rest, rfl, rfl, hrest⟩ := List.map_eq_cons_iff.mp htext
    obtain rfl := List.map_eq_nil_iff.mp hrest
    exact (hcomps c (by simp)).tokens_eq
  | case3 name d rest hend =>
    obtain ⟨rfl, rfl, rfl⟩ := hend
    obtain ⟨c, more, rfl, hc, hmore⟩ := List.map_eq_cons_iff.mp htext
    obtain rfl := List.map_eq_nil_iff.mp hmore
    rw [wholeTokens, (hcomps c (by simp)).tokens_of_stars hc]
    rw [show Text.joined ['/'] (["**", ""].map String.toList) = ['*', '*', '/'] from rfl, tokens]
    simp
  | case4 name d rest hend ih =>
    obtain ⟨c, more, rfl, rfl, hmore⟩ := List.map_eq_cons_iff.mp htext
    have hc := hcomps c (by simp)
    have hmore_ne : more ≠ [] := by
      rintro rfl
      exact wholeComponents_ne_nil (List.cons_ne_nil d rest) hmore.symm
    have hrest := ih hmore (fun x hx => hcomps x (List.mem_cons_of_mem _ hx)) (by simp)
    rw [wholeTokens_cons hmore_ne, List.map_cons,
      Text.joined_cons_of_ne_nil _ _ (by simp), List.append_assoc, List.singleton_append]
    by_cases hs : c.text = "**"
    · have hjoined : Text.joined ['/'] ((d :: rest).map String.toList) ≠ [] := by
        intro hnil
        cases rest with
        | nil => exact hend ⟨hs, by simpa [Text.joined] using hnil, rfl⟩
        | cons => simp [Text.joined] at hnil
      obtain ⟨x, xs, hx⟩ := List.exists_cons_of_ne_nil hjoined
      rw [hx] at hrest ⊢
      rw [hs, show "**".toList = ['*', '*'] from rfl, if_pos (hc.isRecursive_iff.mpr hs),
        List.cons_append, List.singleton_append, tokens, hrest]
      rfl
    · have hr : c.isRecursive = false := by
        rw [← Bool.not_eq_true, hc.isRecursive_iff]
        exact hs
      rw [tokens_append_slash hc.tokens_eq hc.slashFree (.inr fun h => hs (String.toList_inj.mp h)),
        hrest, hr]
      simp [Except.map]

/-- A pattern of proper components says what they say. -/
theorem parse_of_components {p : String} {comps : List Pattern}
    (htext : comps.map Pattern.text = wholeComponents (Text.piecesOf '/' p))
    (hcomps : ∀ c ∈ comps, c.IsComponent) :
    Pattern.parse p = .ok ⟨p, wholeTokens comps⟩ := by
  have h := tokens_joined htext hcomps (Text.piecesOf_ne_nil '/' p)
  rw [Text.piecesOf, List.map_map,
    show String.toList ∘ String.ofList = id from funext fun _ => String.toList_ofList,
    List.map_id, Text.joined_pieces] at h
  rw [Pattern.parse, h]
  rfl

/-! Laying a whole pattern along a whole path. -/

theorem afterSlashes_eq_nil {cs : List Char} (h : '/' ∉ cs) : afterSlashes cs = [] := by
  rw [List.eq_nil_iff_forall_not_mem]
  intro r hr
  obtain ⟨taken, rfl⟩ := mem_afterSlashes.mp hr
  simp at h

theorem afterSlashes_append {cs : List Char} (h : '/' ∉ cs) (more : List Char) :
    afterSlashes (cs ++ '/' :: more) = more :: afterSlashes more := by
  induction cs with
  | nil => simp [afterSlashes]
  | cons c cs ih =>
    rw [List.mem_cons, not_or] at h
    rw [List.cons_append, afterSlashes, if_neg (Ne.symm h.1), ih h.2]

theorem append_slash_inj {a b c d : List Char} (ha : '/' ∉ a) (hc : '/' ∉ c)
    (h : a ++ '/' :: b = c ++ '/' :: d) : a = c ∧ b = d := by
  induction a generalizing c with
  | nil =>
    cases c with
    | nil => exact ⟨rfl, (List.cons.inj h).2⟩
    | cons x xs =>
      rw [List.mem_cons, not_or] at hc
      exact absurd (List.cons.inj h).1 hc.1
  | cons x xs ih =>
    cases c with
    | nil =>
      rw [List.mem_cons, not_or] at ha
      exact absurd (List.cons.inj h).1.symm ha.1
    | cons y ys =>
      rw [List.mem_cons, not_or] at ha hc
      obtain ⟨rfl, hrest⟩ := List.cons.inj h
      obtain ⟨rfl, rfl⟩ := ih ha.2 hc.2 hrest
      exact ⟨rfl, rfl⟩

/-- `**/` takes away some whole leading names, or none. -/
theorem matches_directories_iff {ts : List Token} {names : List String}
    (hnames : ∀ n ∈ names, '/' ∉ n.toList) (hne : names ≠ []) :
    Matches (.directories :: ts) (Text.joined ['/'] (names.map String.toList)) ↔
      ∃ above below, names = above ++ below ∧ below ≠ [] ∧
        Matches ts (Text.joined ['/'] (below.map String.toList)) := by
  rw [matches_cons_iff]
  simp only [Token.rests, List.mem_cons]
  induction names with
  | nil => contradiction
  | cons n names ih =>
    have hn : '/' ∉ n.toList := hnames n (by simp)
    cases names with
    | nil =>
      simp only [List.map_cons, List.map_nil, Text.joined, afterSlashes_eq_nil hn,
        List.not_mem_nil, or_false, exists_eq_left]
      constructor
      · exact fun h => ⟨[], [n], rfl, by simp, h⟩
      · rintro ⟨above, below, happ, hbelow, h⟩
        cases above with
        | nil =>
          rw [List.nil_append] at happ
          subst happ
          exact h
        | cons x xs =>
          have := (List.cons.inj happ).2.symm
          exact absurd (List.append_eq_nil_iff.mp this).2 hbelow
    | cons m ms =>
      have ih := ih (fun x hx => hnames x (List.mem_cons_of_mem _ hx)) (by simp)
      rw [List.map_cons, Text.joined_cons_of_ne_nil _ _ (by simp), List.append_assoc,
        List.singleton_append, afterSlashes_append hn]
      constructor
      · rintro ⟨r, hr | hr, h⟩
        · refine ⟨[], n :: m :: ms, rfl, by simp, ?_⟩
          rw [List.map_cons, Text.joined_cons_of_ne_nil _ _ (by simp), List.append_assoc]
          exact hr ▸ h
        · obtain ⟨above, below, happ, hbelow, h⟩ := ih.mp ⟨r, List.mem_cons.mp hr, h⟩
          exact ⟨n :: above, below, by rw [happ]; rfl, hbelow, h⟩
      · rintro ⟨above, below, happ, hbelow, h⟩
        cases above with
        | nil =>
          rw [List.nil_append] at happ
          rw [← happ, List.map_cons, Text.joined_cons_of_ne_nil _ _ (by simp),
            List.append_assoc] at h
          exact ⟨_, .inl rfl, h⟩
        | cons x xs =>
          obtain ⟨r, hr, h⟩ := ih.mpr ⟨xs, below, (List.cons.inj happ).2, hbelow, h⟩
          exact ⟨r, .inr (List.mem_cons.mpr hr), h⟩

/-- What stays within a name is matched by a path of one name. -/
theorem matches_plain_iff {ts : List Token} {names : List String}
    (hplain : ∀ tok ∈ ts, tok.Plain) (hne : names ≠ []) :
    Matches ts (Text.joined ['/'] (names.map String.toList)) ↔
      ∃ n, names = [n] ∧ Matches ts n.toList := by
  constructor
  · intro h
    have hslash := not_mem_of_matches_plain hplain h
    cases names with
    | nil => contradiction
    | cons n more =>
      cases more with
      | nil => exact ⟨n, rfl, h⟩
      | cons m ms =>
        rw [List.map_cons, Text.joined_cons_of_ne_nil _ _ (by simp)] at hslash
        simp at hslash
  · rintro ⟨n, rfl, h⟩
    exact h

/-- What stays within a name, with a slash behind it, takes the first name of several. -/
theorem matches_slash_iff {ts us : List Token} {names : List String}
    (hplain : ∀ tok ∈ ts, tok.Plain) (hnames : ∀ n ∈ names, '/' ∉ n.toList) (hne : names ≠ []) :
    Matches (ts ++ .literal '/' :: us) (Text.joined ['/'] (names.map String.toList)) ↔
      ∃ n more, names = n :: more ∧ more ≠ [] ∧ Matches ts n.toList ∧
        Matches us (Text.joined ['/'] (more.map String.toList)) := by
  constructor
  · intro h
    have ⟨a, b, hab, ha, hb⟩ := exists_of_matches_append hplain h
    have hslash := not_mem_of_matches_plain hplain ha
    obtain ⟨n, more, rfl⟩ := List.exists_cons_of_ne_nil hne
    have hn : '/' ∉ n.toList := hnames n List.mem_cons_self
    cases hb with
    | @literal _ _ b hb =>
      cases more with
      | nil =>
        rw [List.map_cons, List.map_nil, Text.joined] at hab
        exact absurd (hab ▸ List.mem_append_right a List.mem_cons_self) hn
      | cons m ms =>
        rw [List.map_cons, Text.joined_cons_of_ne_nil _ _ (by simp), List.append_assoc] at hab
        obtain ⟨rfl, rfl⟩ := append_slash_inj hn hslash hab
        exact ⟨n, m :: ms, rfl, by simp, ha, hb⟩
  · rintro ⟨n, more, rfl, hmore, ha, hb⟩
    have hmap : more.map String.toList ≠ [] := by simpa using hmore
    rw [List.map_cons, Text.joined_cons_of_ne_nil _ _ hmap, List.append_assoc]
    exact matches_append ha hplain (.literal hb)

theorem matches_wholeTokens_iff {comps : List Pattern} {names : List String}
    (hcomps : ∀ c ∈ comps, c.IsComponent) (hne : comps ≠ [])
    (hnames : ∀ n ∈ names, '/' ∉ n.toList) (hnames_ne : names ≠ []) :
    Matches (wholeTokens comps) (Text.joined ['/'] (names.map String.toList)) ↔
      NamesMatch comps names := by
  induction comps generalizing names with
  | nil => contradiction
  | cons c rest ih =>
    have hc := hcomps c List.mem_cons_self
    cases rest with
    | nil =>
      rw [wholeTokens]
      cases hr : c.isRecursive with
      | true =>
        rw [hc.tokens_of_stars (hc.isRecursive_iff.mp hr), namesMatch_last_iff hr]
        exact ⟨fun _ => hnames_ne, fun _ => .remainder .nil⟩
      | false =>
        rw [namesMatch_cons_iff hr, matches_plain_iff (hc.plain_of_not_isRecursive hr) hnames_ne]
        constructor
        · rintro ⟨n, rfl, h⟩
          exact ⟨n, [], rfl, h, .nil⟩
        · rintro ⟨n, more, rfl, h, hnil⟩
          cases hnil
          exact ⟨n, rfl, h⟩
    | cons d rest =>
      have ih {below : List String} (hbelow : ∀ n ∈ below, n ∈ names) (hbelow_ne : below ≠ []) :=
        ih (fun x hx => hcomps x (List.mem_cons_of_mem _ hx)) (List.cons_ne_nil d rest)
          (fun n hn => hnames n (hbelow n hn)) hbelow_ne
      rw [wholeTokens_cons (List.cons_ne_nil d rest)]
      cases hr : c.isRecursive with
      | true =>
        rw [if_pos rfl, List.singleton_append, matches_directories_iff hnames hnames_ne,
          namesMatch_recursive_iff hr (List.cons_ne_nil d rest)]
        refine exists_congr fun above => exists_congr fun below => and_congr_right fun happ => ?_
        have hbelow : ∀ n ∈ below, n ∈ names := fun n hn => happ ▸ List.mem_append_right above hn
        exact ⟨fun ⟨hbelow_ne, h⟩ => (ih hbelow hbelow_ne).mp h,
          fun h => ⟨h.ne_nil, (ih hbelow h.ne_nil).mpr h⟩⟩
      | false =>
        rw [if_neg (by simp), List.append_assoc, List.singleton_append,
          matches_slash_iff (hc.plain_of_not_isRecursive hr) hnames hnames_ne,
          namesMatch_cons_iff hr]
        refine exists_congr fun n => exists_congr fun more => and_congr_right fun hcons => ?_
        have hmore : ∀ m ∈ more, m ∈ names := fun m hm => hcons ▸ List.mem_cons_of_mem n hm
        exact ⟨fun ⟨hmore_ne, hn, h⟩ => ⟨hn, (ih hmore hmore_ne).mp h⟩,
          fun ⟨hn, h⟩ => ⟨h.ne_nil, hn, (ih hmore h.ne_nil).mpr h⟩⟩

/-- The language of a whole pattern. -/
theorem matches_iff_namesMatch {p : String} {pattern : Pattern} {comps : List Pattern}
    {names : List String} (hp : Pattern.parse p = .ok pattern)
    (htext : comps.map Pattern.text = wholeComponents (Text.piecesOf '/' p))
    (hcomps : ∀ c ∈ comps, c.IsComponent) (hnames : ∀ n ∈ names, '/' ∉ n.toList)
    (hne : names ≠ []) : pattern.Matches ("/".intercalate names) ↔ NamesMatch comps names := by
  have hcomps_ne : comps ≠ [] := by
    rintro rfl
    exact wholeComponents_ne_nil (Text.piecesOf_ne_nil '/' p) htext.symm
  rw [parse_of_components htext hcomps] at hp
  rw [← Except.ok.inj hp, Pattern.Matches, Text.toList_intercalate_slash]
  exact matches_wholeTokens_iff hcomps hcomps_ne hnames hne

theorem mapM_parse_eq_ok_iff {names : List String} {comps : List Pattern}
    (hnames : ∀ n ∈ names, '/' ∉ n.toList) :
    names.mapM Pattern.parse = .ok comps ↔
      comps.map Pattern.text = names ∧ ∀ c ∈ comps, c.IsComponent := by
  induction names generalizing comps with
  | nil =>
    rw [List.mapM_nil, List.map_eq_nil_iff]
    constructor
    · intro h
      obtain rfl := (Except.ok.inj h).symm
      exact ⟨rfl, by simp⟩
    · rintro ⟨rfl, _⟩
      rfl
  | cons n names ih =>
    have ih := @ih
    rw [List.mapM_cons]
    constructor
    · intro h
      cases hc : Pattern.parse n with
      | error => simp [hc, bind, Except.bind] at h
      | ok c =>
        cases hcs : names.mapM Pattern.parse with
        | error => simp [hc, hcs, bind, Except.bind] at h
        | ok cs =>
          simp only [hc, hcs, bind, Except.bind, pure, Except.pure, Except.ok.injEq] at h
          obtain ⟨htext, hcomps⟩ :=
            (ih fun x hx => hnames x (List.mem_cons_of_mem _ hx)).mp hcs
          have hcomp := Pattern.isComponent_of_parse hc (hnames n (by simp))
          subst h
          refine ⟨by rw [List.map_cons, htext, (Pattern.parse_eq_ok_iff.mp hc).1], ?_⟩
          simpa [hcomp] using hcomps
    · intro ⟨htext, hcomps⟩
      obtain ⟨c, cs, rfl, rfl, hcs⟩ := List.map_eq_cons_iff.mp htext
      have := (ih fun x hx => hnames x (List.mem_cons_of_mem _ hx)).mpr
        ⟨hcs, fun x hx => hcomps x (List.mem_cons_of_mem _ hx)⟩
      rw [(hcomps c (by simp)).parsed, this]
      rfl

theorem Pattern.IsComponent.eq_of_text {c d : Pattern} (hc : c.IsComponent) (hd : d.IsComponent)
    (h : c.text = d.text) : c = d :=
  Except.ok.inj (hc.parsed.symm.trans (h ▸ hd.parsed))

theorem eq_of_texts {cs ds : List Pattern} (hcs : ∀ c ∈ cs, c.IsComponent)
    (hds : ∀ d ∈ ds, d.IsComponent) (h : cs.map Pattern.text = ds.map Pattern.text) : cs = ds := by
  induction cs generalizing ds with
  | nil => exact (List.map_eq_nil_iff.mp h.symm).symm
  | cons c cs ih =>
    obtain ⟨d, ds, rfl, htext, hmore⟩ := List.map_eq_cons_iff.mp h.symm
    have hhead := (hcs c List.mem_cons_self).eq_of_text (hds d List.mem_cons_self) htext.symm
    have htail := ih (fun x hx => hcs x (List.mem_cons_of_mem _ hx))
      (fun x hx => hds x (List.mem_cons_of_mem _ hx)) hmore.symm
    rw [hhead, htail]

theorem exists_components {texts : List String}
    (h : ∀ text ∈ texts, ∃ c : Pattern, c.text = text ∧ c.IsComponent) :
    ∃ comps : List Pattern, comps.map Pattern.text = texts ∧ ∀ c ∈ comps, c.IsComponent := by
  induction texts with
  | nil => exact ⟨[], rfl, by simp⟩
  | cons text texts ih =>
    have ⟨c, htext, hc⟩ := h text List.mem_cons_self
    have ⟨cs, htexts, hcs⟩ := ih fun x hx => h x (List.mem_cons_of_mem _ hx)
    refine ⟨c :: cs, by rw [List.map_cons, htext, htexts], fun x hx => ?_⟩
    cases List.mem_cons.mp hx with
    | inl h => exact h ▸ hc
    | inr h => exact hcs x h

theorem mem_of_mem_wholeComponents {name : String} {names : List String}
    (h : name ∈ wholeComponents names) : name ∈ names := by
  fun_induction wholeComponents names with
  | case1 | case2 => exact h
  | case3 _ _ _ _ => exact List.mem_cons.mpr (.inl (List.mem_singleton.mp h))
  | case4 _ _ _ _ ih =>
    cases List.mem_cons.mp h with
    | inl h => exact List.mem_cons.mpr (.inl h)
    | inr h => exact List.mem_cons_of_mem _ (ih h)

theorem mem_wholeComponents_or {name : String} {names : List String} (h : name ∈ names) :
    name ∈ wholeComponents names ∨ name = "" := by
  fun_induction wholeComponents names with
  | case1 | case2 => exact .inl h
  | case3 c d rest hboth =>
    obtain ⟨rfl, rfl, rfl⟩ := hboth
    cases List.mem_cons.mp h with
    | inl h => exact .inl (List.mem_singleton.mpr h)
    | inr h => exact .inr (List.mem_singleton.mp h)
  | case4 c d rest _ ih =>
    cases List.mem_cons.mp h with
    | inl h => exact .inl (List.mem_cons.mpr (.inl h))
    | inr h => exact (ih h).imp_left (List.mem_cons_of_mem _)

/-- A pattern whose components are patterns is one. -/
theorem exists_parse {p : String}
    (h : ∀ name ∈ Text.piecesOf '/' p, ∃ c : Pattern, c.text = name ∧ c.IsComponent) :
    ∃ pattern, Pattern.parse p = .ok pattern :=
  have ⟨_, htext, hcomps⟩ := exists_components fun name hname =>
    h name (mem_of_mem_wholeComponents hname)
  ⟨_, parse_of_components htext hcomps⟩

theorem collapse_ne_nil {comps : List Pattern} (h : comps ≠ []) : collapse comps ≠ [] := by
  fun_induction collapse comps <;> simp_all

/-- `**` after `**` adds nothing to the language. -/
theorem namesMatch_collapse {comps : List Pattern} {ns : List String} :
    NamesMatch (collapse comps) ns ↔ NamesMatch comps ns := by
  fun_induction collapse comps generalizing ns with
  | case1 | case2 => exact Iff.rfl
  | case3 c d rest hboth ih =>
    rw [Bool.and_eq_true] at hboth
    rw [ih, namesMatch_recursive_iff hboth.1 (by simp)]
    constructor
    · exact fun h => ⟨[], ns, rfl, h⟩
    · rintro ⟨above, below, rfl, h⟩
      induction above with
      | nil => exact h
      | cons n above ih => exact .deeper hboth.2 ih
  | case4 c d rest _ ih =>
    cases hr : c.isRecursive with
    | true =>
      simp only [namesMatch_recursive_iff hr (collapse_ne_nil (List.cons_ne_nil d rest)),
        namesMatch_recursive_iff hr (List.cons_ne_nil d rest), ih]
    | false => simp only [namesMatch_cons_iff hr, ih]

theorem mem_of_mem_collapse {c : Pattern} {comps : List Pattern} (h : c ∈ collapse comps) :
    c ∈ comps := by
  fun_induction collapse comps with
  | case1 | case2 => exact h
  | case3 _ _ _ _ ih => exact List.mem_cons_of_mem _ (ih h)
  | case4 _ _ _ _ ih =>
    rcases List.mem_cons.mp h with rfl | h
    · exact List.mem_cons_self
    · exact List.mem_cons_of_mem _ (ih h)

theorem collapse_append {before : List Pattern} (h : ∀ c ∈ before, c.isRecursive = false)
    (comps : List Pattern) : collapse (before ++ comps) = before ++ collapse comps := by
  induction before with
  | nil => rfl
  | cons c before ih =>
    have ih := ih fun x hx => h x (List.mem_cons_of_mem _ hx)
    have hc : c.isRecursive = false := h c List.mem_cons_self
    rw [List.cons_append, List.cons_append, ← ih]
    cases before ++ comps with
    | nil => rfl
    | cons d rest => rw [collapse, hc, Bool.false_and, if_neg Bool.false_ne_true]

end Sidecar.Glob
