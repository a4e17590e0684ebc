import Mathlib
import Sidecar.CommandLine.Arguments

/-! What arguments say. They spell items, options with their values and switches, and a request that
they make holds these items and nothing else. -/

namespace Sidecar.CommandLine

/-- An option with its value, or a switch. -/
inductive Item where
  | valued (option : Valued) (value : String)
  | switch (s : Switch)
  deriving DecidableEq, Repr

/-- A text that an option can have as its value in an argument of its own: no option itself. -/
def IsPlain (arg : String) : Prop :=
  arg.toList.head? ≠ some '-' ∨ arg = "-"

/-- What an argument says on its own: an option with its value, or switches. -/
inductive Says : List Item → String → Prop where
  | joined (o : Valued) (v : String) : Says [.valued o v] ("--" ++ o.name ++ "=" ++ v)
  | long (s : Switch) : Says [.switch s] ("--" ++ s.name)
  | letters (cs : List Char) (ss : List Switch) : cs.map Switch.ofLetter? = ss.map some → ss ≠ [] →
      Says (ss.map .switch) ("-" ++ String.ofList cs)

/-- Arguments that spell items, one after another. A lone `--` may end them. -/
inductive SpelledBy : List Item → List String → Prop where
  | nil : SpelledBy [] []
  | stop : SpelledBy [] ["--"]
  | alone {said items arg args} : Says said arg → SpelledBy items args →
      SpelledBy (said ++ items) (arg :: args)
  | apart {items args} (o : Valued) (v : String) : IsPlain v → SpelledBy items args →
      SpelledBy (.valued o v :: items) (("--" ++ o.name) :: v :: args)

/-- The values of an option, in their order. -/
def valuesOf (o : Valued) (items : List Item) : List String :=
  items.filterMap fun
    | .valued other v => if other = o then some v else none
    | .switch _ => none

def switchesOf (items : List Item) : List Switch :=
  items.filterMap fun
    | .valued _ _ => none
    | .switch s => some s

@[simp] theorem valuesOf_append (o : Valued) (items more : List Item) :
    valuesOf o (items ++ more) = valuesOf o items ++ valuesOf o more :=
  List.filterMap_append

@[simp] theorem switchesOf_append (items more : List Item) :
    switchesOf (items ++ more) = switchesOf items ++ switchesOf more :=
  List.filterMap_append

@[simp] theorem valuesOf_valued (o other : Valued) (v : String) :
    valuesOf o [.valued other v] = if other = o then [v] else [] := by
  by_cases h : other = o <;> simp [valuesOf, h]

@[simp] theorem valuesOf_switch (o : Valued) (s : Switch) : valuesOf o [.switch s] = [] :=
  rfl

@[simp] theorem switchesOf_valued (o : Valued) (v : String) : switchesOf [.valued o v] = [] :=
  rfl

@[simp] theorem switchesOf_switch (s : Switch) : switchesOf [.switch s] = [s] :=
  rfl

/-- The format that the value of its option names. -/
def formatNamed? : String → Option Summary.Format
  | "table" => some .table
  | "json" => some .json
  | _ => none

/-- What has been given is what items say: the value of each option and the switches. -/
structure Holds (items : List Item) (g : Given) : Prop where
  root : valuesOf .root items = g.root.toList
  domain : (valuesOf .domain items).map Domain.ofName? = g.domain.toList.map some
  revisionDate : valuesOf .revisionDate items = g.revisionDate.toList
  sourceId : valuesOf .sourceId items = g.sourceId.toList
  globs : valuesOf .glob items = g.globs
  approver : valuesOf .approver items = g.approver.toList
  format : (valuesOf .format items).map formatNamed? = g.format.toList.map some
  switches : switchesOf items = g.switches

theorem holds_nothing : Holds [] .nothing :=
  ⟨rfl, rfl, rfl, rfl, rfl, rfl, rfl, rfl⟩

theorem once_eq_ok {α : Type} {o : Valued} {old result : Option α} {new : Except UsageError α}
    (h : Given.once o old new = .ok result) : old = none ∧ ∃ a, new = .ok a ∧ result = some a := by
  unfold Given.once at h
  split at h
  · contradiction
  · cases new with
    | error => contradiction
    | ok a => exact ⟨rfl, a, rfl, (Except.ok.inj h).symm⟩

theorem bind_eq_ok {ε α β : Type} {x : Except ε α} {f : α → Except ε β} {b : β}
    (h : (x >>= f) = .ok b) : ∃ a, x = .ok a ∧ f a = .ok b := by
  cases x with
  | error => contradiction
  | ok a => exact ⟨a, rfl, h⟩

theorem mapError_eq_ok {ε ε' α : Type} {f : ε → ε'} {x : Except ε α} {a : α}
    (h : x.mapError f = .ok a) : x = .ok a := by
  cases x with
  | error => contradiction
  | ok => exact congrArg Except.ok (Except.ok.inj h)

theorem domainOf_eq_ok {v : String} {d : Domain} (h : Given.domainOf v = .ok d) :
    Domain.ofName? v = some d := by
  unfold Given.domainOf at h
  split at h
  next hd => rw [hd, Except.ok.inj h]
  next => contradiction

theorem formatOf_eq_ok {v : String} {f : Summary.Format} (h : Given.formatOf v = .ok f) :
    formatNamed? v = some f := by
  unfold Given.formatOf at h
  split at h
  · exact congrArg some (Except.ok.inj h)
  · exact congrArg some (Except.ok.inj h)
  · contradiction

theorem checkDate_eq_ok {v date : String} (h : Calendar.checkDate v = .ok date) : date = v := by
  unfold Calendar.checkDate at h
  split at h
  · contradiction
  · split at h
    · exact (Except.ok.inj h).symm
    · contradiction

section

variable {items : List Item} {g g' : Given} {pending pending' : Pending}

/-- One more value. -/
theorem Holds.setValue (hg : Holds items g) {o : Valued} {v : String}
    (h : g.setValue o v = .ok g') : Holds (items ++ [.valued o v]) g' := by
  obtain ⟨hroot, hdomain, hdate, hsource, hglobs, happrover, hformat, hswitches⟩ := hg
  cases o with
  | root =>
    have ⟨_, honce, hg'⟩ := bind_eq_ok h
    have ⟨hold, root, hv, hnew⟩ := once_eq_ok honce
    split at hv
    · contradiction
    · obtain rfl := Except.ok.inj hv
      obtain rfl := Except.ok.inj hg'
      rw [hold] at hroot
      constructor <;> simp [*]
  | domain =>
    have ⟨_, honce, hg'⟩ := bind_eq_ok h
    have ⟨hold, domain, hv, hnew⟩ := once_eq_ok honce
    have hnamed := domainOf_eq_ok hv
    obtain rfl := Except.ok.inj hg'
    rw [hold] at hdomain
    constructor <;> simp [*]
  | revisionDate =>
    have ⟨_, honce, hg'⟩ := bind_eq_ok h
    have ⟨hold, date, hv, hnew⟩ := once_eq_ok honce
    have hsame := checkDate_eq_ok (mapError_eq_ok hv)
    obtain rfl := Except.ok.inj hg'
    rw [hold] at hdate
    constructor <;> simp [*]
  | sourceId =>
    have ⟨_, honce, hg'⟩ := bind_eq_ok h
    have ⟨hold, id, hv, hnew⟩ := once_eq_ok honce
    obtain rfl := Except.ok.inj hv
    obtain rfl := Except.ok.inj hg'
    rw [hold] at hsource
    constructor <;> simp [*]
  | glob =>
    obtain rfl := Except.ok.inj h
    constructor <;> simp [*]
  | approver =>
    have ⟨_, honce, hg'⟩ := bind_eq_ok h
    have ⟨hold, name, hv, hnew⟩ := once_eq_ok honce
    obtain rfl := Except.ok.inj hv
    obtain rfl := Except.ok.inj hg'
    rw [hold] at happrover
    constructor <;> simp [*]
  | format =>
    have ⟨_, honce, hg'⟩ := bind_eq_ok h
    have ⟨hold, format, hv, hnew⟩ := once_eq_ok honce
    have hnamed := formatOf_eq_ok hv
    obtain rfl := Except.ok.inj hg'
    rw [hold] at hformat
    constructor <;> simp [*]

/-- One more switch. -/
theorem Holds.flip (hg : Holds items g) {s : Switch} (h : flip g s = .ok g') :
    Holds (items ++ [.switch s]) g' := by
  have hnew {s : Switch} (h : (if s ∈ g.switches then .error (.wrong (.repeatedSwitch s))
      else .ok { g with switches := g.switches ++ [s] } : Except Stop Given) = .ok g') :
      Holds (items ++ [.switch s]) g' := by
    split at h
    · contradiction
    · obtain rfl := Except.ok.inj h
      obtain ⟨hroot, hdomain, hdate, hsource, hglobs, happrover, hformat, hswitches⟩ := hg
      constructor <;> simp [*]
  cases s with
  | help | version => contradiction
  | dryRun | strict | verbose | quiet => exact hnew h

/-- What a pending option says, if it has its value. -/
def Pending.items? : Pending → Option (List Item)
  | none => some []
  | some (o, some v) => some [.valued o v]
  | some (_, none) => none

theorem Holds.settle (hg : Holds items g) (h : settle g pending = .ok g') :
    ∃ done, Pending.items? pending = some done ∧ Holds (items ++ done) g' := by
  unfold CommandLine.settle at h
  split at h
  · obtain rfl := Except.ok.inj h
    exact ⟨[], rfl, by rwa [List.append_nil]⟩
  · contradiction
  · exact ⟨_, rfl, hg.setValue h⟩

theorem flipLetters_cons_eq_ok {c : Char} {cs : List Char}
    (h : flipLetters g pending (c :: cs) = .ok (g', pending')) :
    ∃ s settled flipped, Switch.ofLetter? c = some s ∧ settle g pending = .ok settled ∧
      flip settled s = .ok flipped ∧ flipLetters flipped none cs = .ok (g', pending') := by
  rw [flipLetters] at h
  split at h
  next => contradiction
  next s hletter =>
    have ⟨settled, hsettle, hmore⟩ := bind_eq_ok h
    have ⟨flipped, hflip, hrest⟩ := bind_eq_ok hmore
    exact ⟨s, settled, flipped, hletter, mapError_eq_ok hsettle, hflip, hrest⟩

/-- Letters behind one hyphen are switches, one each. -/
theorem Holds.flipLetters (hg : Holds items g) {cs : List Char}
    (h : flipLetters g none cs = .ok (g', pending')) :
    pending' = none ∧ ∃ ss : List Switch, cs.map Switch.ofLetter? = ss.map some ∧
      Holds (items ++ ss.map .switch) g' := by
  induction cs generalizing g items with
  | nil =>
    obtain ⟨rfl, rfl⟩ := Prod.mk.inj (Except.ok.inj h)
    exact ⟨rfl, [], rfl, by simpa using hg⟩
  | cons c cs ih =>
    have ⟨s, settled, flipped, hletter, hsettle, hflip, hrest⟩ := flipLetters_cons_eq_ok h
    obtain rfl : g = settled := Except.ok.inj hsettle
    have ⟨hpending, ss, hss, hholds⟩ := ih (hg.flip hflip) hrest
    exact ⟨hpending, s :: ss, by rw [List.map_cons, List.map_cons, hletter, hss],
      by simpa using hholds⟩

theorem splitLong_none {cs : List Char} {name : String} (h : splitLong cs = (name, none)) :
    cs = name.toList := by
  unfold splitLong at h
  split at h
  next hrest =>
    have hall := List.takeWhile_append_dropWhile (p := (· ≠ '=')) (l := cs)
    rw [hrest, List.append_nil] at hall
    rw [← (Prod.mk.inj h).1, String.toList_ofList, hall]
  next => simp at h

theorem splitLong_some {cs : List Char} {name v : String} (h : splitLong cs = (name, some v)) :
    cs = name.toList ++ '=' :: v.toList := by
  unfold splitLong at h
  split at h
  next => simp at h
  next c value hrest =>
    have hall := List.takeWhile_append_dropWhile (p := (· ≠ '=')) (l := cs)
    have heq : c = '=' := by
      have := List.head?_dropWhile_not (· ≠ '=') cs
      rw [hrest] at this
      simpa using this
    obtain ⟨rfl, hv⟩ := Prod.mk.inj h
    obtain rfl := Option.some.inj hv
    rw [hrest, heq] at hall
    rw [String.toList_ofList, String.toList_ofList, hall]

theorem eq_dashes_append {arg name : String} (h : arg.toList = '-' :: '-' :: name.toList) :
    arg = "--" ++ name :=
  String.toList_injective (by rw [h, String.toList_append]; rfl)

/-- What is given once an argument is taken in: what it says, or what was given before, with an
option that waits for its value. -/
inductive Taken (items : List Item) (arg : String) (g : Given) : Pending → Prop where
  | said {said} : Says said arg → Holds (items ++ said) g → Taken items arg g none
  | waiting (o : Valued) : arg = "--" ++ o.name → Holds items g →
      Taken items arg g (some (o, none))

theorem Holds.takeLong (hg : Holds items g) {arg : String} {cs : List Char}
    (harg : arg.toList = '-' :: '-' :: cs) (h : takeLong g pending cs = .ok (g', pending')) :
    ∃ done, Pending.items? pending = some done ∧ Taken (items ++ done) arg g' pending' := by
  unfold CommandLine.takeLong at h
  rcases hsplit : splitLong cs with ⟨name, value⟩
  rw [hsplit] at h
  dsimp only at h
  split at h
  next o ho =>
    obtain rfl : o.name = name := by simpa using List.find?_some ho
    have ⟨settled, hsettle, hrest⟩ := bind_eq_ok h
    have ⟨done, hdone, hsettled⟩ := hg.settle (mapError_eq_ok hsettle)
    refine ⟨done, hdone, ?_⟩
    cases value with
    | none =>
      obtain ⟨rfl, rfl⟩ := Prod.mk.inj (Except.ok.inj hrest)
      exact .waiting o (eq_dashes_append (splitLong_none hsplit ▸ harg)) hsettled
    | some v =>
      have ⟨set, hset, hend⟩ := bind_eq_ok hrest
      obtain ⟨rfl, rfl⟩ := Prod.mk.inj (Except.ok.inj hend)
      obtain rfl : arg = "--" ++ o.name ++ "=" ++ v :=
        String.toList_injective (by simp [harg, splitLong_some hsplit])
      exact .said (.joined o v) (hsettled.setValue (mapError_eq_ok hset))
  next =>
    split at h
    next s hs =>
      obtain rfl : s.name = name := by simpa using List.find?_some hs
      cases value with
      | some v => contradiction
      | none =>
        have ⟨settled, hsettle, hrest⟩ := bind_eq_ok h
        have ⟨flipped, hflip, hend⟩ := bind_eq_ok hrest
        have ⟨done, hdone, hsettled⟩ := hg.settle (mapError_eq_ok hsettle)
        obtain ⟨rfl, rfl⟩ := Prod.mk.inj (Except.ok.inj hend)
        obtain rfl := eq_dashes_append (splitLong_none hsplit ▸ harg)
        exact ⟨done, hdone, .said (.long s) (hsettled.flip hflip)⟩
    next => contradiction

theorem Holds.takeLetters (hg : Holds items g) {arg : String} {c : Char} {cs : List Char}
    (harg : arg.toList = '-' :: c :: cs)
    (h : CommandLine.flipLetters g pending (c :: cs) = .ok (g', pending')) :
    ∃ done, Pending.items? pending = some done ∧ Taken (items ++ done) arg g' pending' := by
  have ⟨s, settled, flipped, hletter, hsettle, hflip, hrest⟩ := flipLetters_cons_eq_ok h
  have ⟨done, hdone, hsettled⟩ := hg.settle hsettle
  have ⟨hpending, ss, hss, hholds⟩ := (hsettled.flip hflip).flipLetters hrest
  obtain rfl : pending' = none := hpending
  obtain rfl : arg = "-" ++ String.ofList (c :: cs) := String.toList_injective (by simp [harg])
  refine ⟨done, hdone, .said (.letters (c :: cs) (s :: ss) ?_ (by simp)) (by simpa using hholds)⟩
  rw [List.map_cons, List.map_cons, hletter, hss]

/-- What arguments say behind a pending option: an option without its value takes the next one. -/
inductive SpelledAfter : Pending → List Item → List String → Prop where
  | settled {pending done items args} : Pending.items? pending = some done →
      SpelledBy items args → SpelledAfter pending (done ++ items) args
  | value {items args} (o : Valued) (v : String) : IsPlain v → SpelledBy items args →
      SpelledAfter (some (o, none)) (.valued o v :: items) (v :: args)

theorem SpelledAfter.spelledBy {items : List Item} {args : List String}
    (h : SpelledAfter none items args) : SpelledBy items args := by
  cases h with
  | settled hdone hitems =>
    obtain rfl := Option.some.inj hdone
    exact hitems

theorem isPlain_of_ne {arg : String} (h : ∀ c cs, arg.toList ≠ '-' :: c :: cs) : IsPlain arg := by
  rcases hchars : arg.toList with _ | ⟨c, _ | ⟨next, rest⟩⟩
  · exact .inl (by simp [hchars])
  · by_cases hc : c = '-'
    · exact .inr (String.toList_injective (by rw [hchars, hc]; rfl))
    · exact .inl (by simpa [hchars] using hc)
  · exact .inl fun hc => h next rest (by rw [hchars] at hc ⊢; rw [Option.some.inj hc])

/-- An argument and the arguments behind it spell what is given in the end, if the latter do. -/
theorem Taken.exists_spelledBy {arg : String} {rest : List String} {final : Given}
    (h : Taken items arg g pending)
    (hrest : ∀ {said}, Holds said g → ∃ more, SpelledAfter pending more rest ∧
      Holds (said ++ more) final) :
    ∃ more, SpelledBy more (arg :: rest) ∧ Holds (items ++ more) final := by
  cases h with
  | said hsaid hholds =>
    have ⟨more, hmore, hend⟩ := hrest hholds
    exact ⟨_, .alone hsaid hmore.spelledBy, by rwa [← List.append_assoc]⟩
  | waiting o harg hholds =>
    have ⟨more, hmore, hend⟩ := hrest hholds
    cases hmore with
    | settled hnone => contradiction
    | value _ v hv hspelled => exact ⟨_, harg ▸ .apart o v hv hspelled, hend⟩

/-- Arguments that are taken in are the spelling of what is then given. An option that waits for its
value is not given yet, so that the induction on the arguments is for any pending option. -/
theorem Holds.takeAll (hg : Holds items g) {args : List String}
    (h : takeAll g pending args = .ok g') :
    ∃ more, SpelledAfter pending more args ∧ Holds (items ++ more) g' := by
  induction args generalizing g pending items with
  | nil =>
    have ⟨done, hdone, hholds⟩ := hg.settle (mapError_eq_ok h)
    exact ⟨done ++ [], .settled hdone .nil, by rwa [List.append_nil]⟩
  | cons arg rest ih =>
    unfold CommandLine.takeAll at h
    split at h
    next harg =>
      split at h
      next =>
        have ⟨done, hdone, hholds⟩ := hg.settle (mapError_eq_ok h)
        obtain rfl : arg = "--" := String.toList_injective harg
        exact ⟨done ++ [], .settled hdone .stop, by rwa [List.append_nil]⟩
      next => contradiction
    next harg =>
      have ⟨_, htake, hrest⟩ := bind_eq_ok h
      have ⟨done, hdone, htaken⟩ := hg.takeLong harg htake
      have ⟨more, hmore, hend⟩ := htaken.exists_spelledBy fun hholds => ih hholds hrest
      exact ⟨done ++ more, .settled hdone hmore, by rwa [← List.append_assoc]⟩
    next harg =>
      have ⟨_, htake, hrest⟩ := bind_eq_ok h
      have ⟨done, hdone, htaken⟩ := hg.takeLetters harg htake
      have ⟨more, hmore, hend⟩ := htaken.exists_spelledBy fun hholds => ih hholds hrest
      exact ⟨done ++ more, .settled hdone hmore, by rwa [← List.append_assoc]⟩
    next _ _ hshort =>
      have ⟨_, htake, hrest⟩ := bind_eq_ok h
      unfold takePlain at htake
      split at htake
      next o =>
        obtain rfl := Except.ok.inj htake
        have ⟨more, hmore, hend⟩ := ih hg hrest
        cases hmore with
        | settled hdone hspelled =>
          obtain rfl := Option.some.inj hdone
          exact ⟨_, .value o arg (isPlain_of_ne hshort) hspelled, hend⟩
      next => contradiction

end

/-- A request that holds what items say and nothing else. -/
structure Gathered (items : List Item) (a : Arguments) : Prop where
  root : valuesOf .root items = [a.root.text]
  domain : (valuesOf .domain items).map Domain.ofName? = [some a.domain]
  revisionDate : valuesOf .revisionDate items = a.revisionDate.toList
  sourceId : valuesOf .sourceId items = a.sourceId.toList
  globs : valuesOf .glob items = a.globs
  approver : valuesOf .approver items = a.approver.toList
  format : (valuesOf .format items).map formatNamed? = a.format.toList.map some
  dryRun : a.dryRun ↔ .dryRun ∈ switchesOf items
  strict : a.strict ↔ .strict ∈ switchesOf items
  verbose : a.verbose ↔ .verbose ∈ switchesOf items
  quiet : a.quiet ↔ .quiet ∈ switchesOf items

theorem Holds.gathered {items : List Item} {g : Given} (hg : Holds items g) {a : Arguments}
    (h : g.finish = .ok a) : Gathered items a := by
  obtain ⟨hroot, hdomain, hdate, hsource, hglobs, happrover, hformat, hswitches⟩ := hg
  unfold Given.finish at h
  dsimp only at h
  split at h
  · split at h <;> contradiction
  · split at h
    next root domain glob globs hr hd hgs =>
      obtain rfl := Except.ok.inj h
      constructor <;> simp [*]
    next => contradiction

/-! Arguments that stop before their end request no run. -/

theorem bind_ne_error {ε α β : Type} {x : Except ε α} {f : α → Except ε β} {e : ε}
    (hx : x ≠ .error e) (hf : ∀ a, f a ≠ .error e) : (x >>= f) ≠ .error e := by
  cases x with
  | error e' => exact fun h => hx (congrArg Except.error (Except.error.inj h))
  | ok a => exact hf a

theorem mapError_wrong_ne {α : Type} (x : Except UsageError α) (r : Request) :
    x.mapError Stop.wrong ≠ .error (.request r) := by
  cases x <;> simp [Except.mapError]

section

variable (g : Given) (pending : Pending) (a : Arguments)

theorem flip_ne_generate (s : Switch) : flip g s ≠ .error (.request (.generate a)) := by
  cases s <;> unfold flip <;> grind

theorem flipLetters_ne_generate (cs : List Char) :
    flipLetters g pending cs ≠ .error (.request (.generate a)) := by
  induction cs generalizing g pending with
  | nil => simp [flipLetters]
  | cons c cs ih =>
    rw [flipLetters]
    cases Switch.ofLetter? c with
    | none => simp
    | some s =>
      exact bind_ne_error (mapError_wrong_ne _ _) fun g =>
        bind_ne_error (flip_ne_generate g a s) fun g => ih g none

theorem takeLong_ne_generate (cs : List Char) :
    takeLong g pending cs ≠ .error (.request (.generate a)) := by
  unfold takeLong
  rcases splitLong cs with ⟨name, value⟩
  dsimp only
  split
  · refine bind_ne_error (mapError_wrong_ne _ _) fun g => ?_
    cases value with
    | none => simp
    | some v => exact bind_ne_error (mapError_wrong_ne _ _) fun g => by simp
  · split
    next s _ =>
      cases value with
      | some v => simp
      | none =>
        exact bind_ne_error (mapError_wrong_ne _ _) fun g =>
          bind_ne_error (flip_ne_generate g a s) fun g => by simp
    next => simp

theorem takePlain_ne_generate (arg : String) :
    takePlain g pending arg ≠ .error (.request (.generate a)) := by
  unfold takePlain
  split <;> simp

theorem takeAll_ne_generate (args : List String) :
    takeAll g pending args ≠ .error (.request (.generate a)) := by
  induction args generalizing g pending with
  | nil => exact mapError_wrong_ne _ _
  | cons arg rest ih =>
    unfold takeAll
    split
    · split
      · exact mapError_wrong_ne _ _
      · simp
    · exact bind_ne_error (takeLong_ne_generate g pending a _) fun taken => ih taken.1 taken.2
    · exact bind_ne_error (flipLetters_ne_generate g pending a _) fun taken =>
        ih taken.1 taken.2
    · exact bind_ne_error (takePlain_ne_generate g pending a arg) fun taken =>
        ih taken.1 taken.2

end

/-- Arguments that request a run spell what the request holds. -/
theorem spelledBy_of_parse {args : List String} {a : Arguments}
    (h : parse args = .ok (.generate a)) : ∃ items, SpelledBy items args ∧ Gathered items a := by
  unfold parse at h
  split at h
  next => contradiction
  next hstop =>
    obtain rfl := Except.ok.inj h
    exact absurd hstop (takeAll_ne_generate _ _ _ _)
  next g hall =>
    have ⟨items, hspelled, hholds⟩ := holds_nothing.takeAll hall
    refine ⟨items, hspelled.spelledBy, ?_⟩
    cases hfinish : g.finish with
    | error e =>
      rw [hfinish] at h
      contradiction
    | ok found =>
      rw [hfinish] at h
      have hsame : found = a := by simpa [Except.map] using h
      exact hholds.gathered (hsame ▸ hfinish)

end Sidecar.CommandLine
