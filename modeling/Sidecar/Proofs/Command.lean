import Sidecar.CommandLine.Program
import Sidecar.Proofs.Agreement
import Sidecar.Proofs.Unambiguity

/-! The command does what a run does. Its arguments, the settings of the content root and the name
of the user decide which run; what the run leaves decides what the command leaves. -/

namespace Sidecar.CommandLine

/-- The first value of an option. -/
def valueOf (o : Valued) (items : List Item) : Option String :=
  (valuesOf o items).head?

/-- The options of the run that items, settings and the name of the user ask for. -/
structure AskedFor (items : List Item) (config : Config) (user : Option String)
    (options : RunOptions) : Prop where
  root : valuesOf .root items = [options.root.text]
  globs : options.globs = valuesOf .glob items
  exclude : options.exclude = config.exclude
  domain : (valuesOf .domain items).map Domain.ofName? = [some options.context.domain]
  revisionDate : valuesOf .revisionDate items = [options.context.revisionDate]
  sourceId : options.context.sourceId = (valueOf .sourceId items).filter (· ≠ "")
  approver : options.context.approver = ((valueOf .approver items).or user).filter (· ≠ "")
  dryRun : options.dryRun ↔ .dryRun ∈ switchesOf items
  strict : options.strict ↔ .strict ∈ switchesOf items ∨ config.strict

/-- The format of the summary: the one that items name, else the one that the settings name. -/
def formatFor (items : List Item) (config : Config) : Summary.Format :=
  (((valueOf .format items).bind formatNamed?).or
    (config.format.bind Summary.Format.ofName?)).getD .table

/-- What standard output shows of a report. -/
def shownOf (items : List Item) (config : Config) (r : Report) : String :=
  match formatFor items config with
  | .json => Summary.jsonText r ++ "\n"
  | .table =>
    if .quiet ∈ switchesOf items then ""
    else Summary.tableText (config.colour = some true) r ++ "\n"

/-- The command leaves what a run leaves and shows what it reports. -/
structure Mirrors (items : List Item) (config : Config) (outcome : Outcome) (exit : Exit) :
    Prop where
  tree : exit.tree = outcome.tree
  of_ok : ∀ r, outcome.result = .ok r → exit.code = 0 ∧ exit.stdout = shownOf items config r
  of_error : ∀ e, outcome.result = .error e → exit.code = 1 ∧ exit.stdout = ""

section

variable {items : List Item} {a : Arguments}

theorem Gathered.valueOf_sourceId (h : Gathered items a) :
    valueOf .sourceId items = a.sourceId := by
  rw [valueOf, h.sourceId, Option.head?_toList]

theorem Gathered.valueOf_approver (h : Gathered items a) :
    valueOf .approver items = a.approver := by
  rw [valueOf, h.approver, Option.head?_toList]

theorem Gathered.formatFor_eq (h : Gathered items a) (config : Config) :
    formatFor items config = formatOf a config := by
  have hformat : (valueOf .format items).bind formatNamed? = a.format := by
    have hnamed : (valueOf .format items).map formatNamed? = a.format.map some := by
      simpa [valueOf] using congrArg List.head? h.format
    calc (valueOf .format items).bind formatNamed?
        = ((valueOf .format items).map formatNamed?).bind id := by
          rw [Option.bind_map]
          rfl
      _ = (a.format.map some).bind id := by rw [hnamed]
      _ = a.format := by cases a.format <;> rfl
  rw [formatFor, formatOf, hformat]

theorem Gathered.shownOf_eq (h : Gathered items a) (config : Config) (r : Report) :
    shownOf items config r = printed a config r := by
  unfold shownOf printed
  rw [h.formatFor_eq]
  cases formatOf a config with
  | json => rfl
  | table => simp only [← h.quiet, isColoured, beq_eq_decide]

theorem Gathered.askedFor (h : Gathered items a) {date : String}
    (hdate : a.revisionDate = some date) (env : Environment) (config : Config) :
    AskedFor items config env.user (optionsOf env a config) := by
  have hgiven : (optionsOf env a config).context.revisionDate = date := by
    simp [optionsOf, contextOf, RecordContext.new, hdate]
  exact {
    root := h.root
    globs := h.globs.symm
    exclude := rfl
    domain := h.domain
    revisionDate := by rw [h.revisionDate, hdate, hgiven]; rfl
    sourceId := by rw [h.valueOf_sourceId]; rfl
    approver := by rw [h.valueOf_approver]; rfl
    dryRun := h.dryRun
    strict := by rw [← h.strict]; exact Bool.or_eq_true_iff }

theorem Gathered.mirrors (h : Gathered items a) (env : Environment) (t : FileTree) :
    Mirrors items (Config.load t a.root).1 (run (optionsOf env a (Config.load t a.root).1) t)
      (generate env a t) := by
  unfold generate
  dsimp only
  cases hresult : (run (optionsOf env a (Config.load t a.root).1) t).result with
  | error e =>
    exact {
      tree := rfl
      of_ok := fun r hr => absurd (hresult.symm.trans hr) (by simp)
      of_error := fun _ _ => ⟨rfl, rfl⟩ }
  | ok report =>
    refine {
      tree := rfl
      of_ok := fun r hr => ⟨rfl, ?_⟩
      of_error := fun e he => absurd (hresult.symm.trans he) (by simp) }
    obtain rfl := Except.ok.inj (hresult.symm.trans hr)
    exact (h.shownOf_eq _ _).symm

end

/-- The command with arguments that request a run and give its date. -/
theorem execute_mirrors_run (env : Environment) (t : FileTree) {args : List String} {a : Arguments}
    {date : String} (hargs : parse args = .ok (.generate a))
    (hdate : a.revisionDate = some date) :
    (∃ items, SpelledBy items args) ∧ ∀ items, SpelledBy items args → ∃ options,
      AskedFor items (Config.load t options.root).1 env.user options ∧
      Mirrors items (Config.load t options.root).1 (run options t) (execute env args t) := by
  have ⟨items, hspelled, hgathered⟩ := spelledBy_of_parse hargs
  refine ⟨⟨items, hspelled⟩, fun others hothers => ?_⟩
  obtain rfl := hspelled.unique hothers
  refine ⟨optionsOf env a (Config.load t a.root).1, hgathered.askedFor hdate env _, ?_⟩
  rw [execute, hargs]
  exact hgathered.mirrors env t

/-- An environment with a user. -/
def clerk : Environment :=
  ⟨some "clerk", "2024-05-02"⟩

/-- Arguments for a quiet run that no one approves: an empty name takes the place of the user's. -/
def quietArgs : List String :=
  ["--root", "/", "--domain=tax", "--revision-date", "2024-05-01", "-q", "--approver=", "--glob",
    "a"]

def quietArguments : Arguments where
  root := ⟨"/"⟩
  domain := .tax
  revisionDate := some "2024-05-01"
  sourceId := none
  globs := ["a"]
  approver := some ""
  dryRun := false
  strict := false
  format := none
  verbose := false
  quiet := true

theorem execute_mirrors_run_oneFile : ∃ items options, SpelledBy items quietArgs ∧
    AskedFor items (Config.load FileTree.oneFile options.root).1 clerk.user options ∧
    Mirrors items (Config.load FileTree.oneFile options.root).1 (run options FileTree.oneFile)
      (execute clerk quietArgs FileTree.oneFile) := by
  have hargs : parse quietArgs = .ok (.generate quietArguments) := by cbv
  obtain ⟨⟨items, hspelled⟩, hall⟩ := execute_mirrors_run clerk FileTree.oneFile hargs rfl
  obtain ⟨options, hasked, hmirrors⟩ := hall items hspelled
  exact ⟨items, options, hspelled, hasked, hmirrors⟩

end Sidecar.CommandLine
