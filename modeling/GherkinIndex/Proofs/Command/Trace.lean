import GherkinIndex.Proofs.Batch.Answer
import GherkinIndex.Proofs.Command.Delivery
import GherkinIndex.Proofs.Options.Invalid
import GherkinIndex.Proofs.Path.Order

/-! What a run leaves behind.

    A run looks before it writes: options, files and trees come first, and what goes wrong with them
    leaves no trace. A run that ends well has written its reports and nothing else.

        options ✗ ──▶ 2     search ✗, strict ✗ ──▶ 1     reports ✓ ──▶ 0
        nothing written     nothing written              targets and their directories     -/

namespace GherkinIndex

namespace Batch

theorem fails_collect {strict : Bool} {os : List Outcome} :
    Fails (collect strict os) ↔ strict = true ∧ ∃ e, Outcome.failed e ∈ os := by
  induction os with
  | nil => simp [collect]
  | cons o os ih =>
    cases o with
    | skipped => simp [collect, ih]
    | parsed n =>
      have hhead : Fails (collect strict (.parsed n :: os)) ↔ Fails (collect strict os) := by
        rw [collect]
        cases collect strict os <;> simp
      simp [hhead, ih]
    | failed e =>
      rw [collect]
      cases strict with
      | true => simp
      | false =>
        rw [if_neg Bool.false_ne_true]
        cases hrest : collect false os with
        | ok r => simp
        | error e' => simp [hrest] at ih

theorem mem_outcomes {f : TagFilter} {root : Text} {d : Disk} {paths : List Text}
    {e : FeatureError} : Outcome.failed e ∈ paths.map (outcome f root d) ↔
      ∃ p ∈ paths, (parseFile f root d p).result = .error e := by
  rw [List.mem_map]
  refine exists_congr fun p => and_congr_right fun _ => ?_
  cases h : (parseFile f root d p).result with
  | ok n => simp [outcome_of_ok f root d h]
  | error e' => simp [outcome_of_error f root d h]

theorem fails_parseFiles {f : TagFilter} {o : BatchOptions} {d : Disk} {paths : List Text} :
    Fails (parseFiles f o d paths).1 ↔ o.strict = true ∧
      ∃ p ∈ paths, ∃ e, (parseFile f o.root d p).result = .error e := by
  rw [parseFiles, conclude_fst, fails_collect]
  simp only [mem_outcomes]
  refine and_congr_right fun _ => ⟨?_, ?_⟩
  · rintro ⟨e, p, hp, he⟩
    exact ⟨p, hp, e, he⟩
  · rintro ⟨p, hp, e, he⟩
    exact ⟨e, p, hp, he⟩

end Batch

namespace Command

/-! ### Before the report -/

/-- Why there is no report: the search for files stops, or the run is strict and a file has no
    tree. -/
inductive Unreported (o : Options) (d : Disk) : Prop
  | search {e : DiscoveryError} (stopped : (Discovery.featureFiles d o.input).found = .error e)
  | tree {files : List Text} {p : Text} {e : FeatureError} (strict : o.settings.strict = true)
      (found : (Discovery.featureFiles d o.input).found = .ok files) (mem : p ∈ files)
      (refused : (parseFile o.filter o.batch.root d p).result = .error e)

theorem fails_report_of_found {o : Options} {d : Disk} {files : List Text}
    (h : (Discovery.featureFiles d o.input).found = .ok files) :
    Fails (report o d).1 ↔ Fails (Batch.parseFiles o.filter o.batch d files).1 := by
  rcases hsearch : Discovery.featureFiles d o.input with ⟨found, log⟩
  obtain rfl : found = .ok files := by simpa [hsearch] using h
  rw [report, hsearch]
  dsimp only
  rcases hbatch : Batch.parseFiles o.filter o.batch d files with ⟨_ | r, events⟩ <;> simp

theorem fails_report {o : Options} {d : Disk} : Fails (report o d).1 ↔ Unreported o d := by
  cases hfound : (Discovery.featureFiles d o.input).found with
  | error e =>
    rcases hsearch : Discovery.featureFiles d o.input with ⟨found, log⟩
    obtain rfl : found = .error e := by simpa [hsearch] using hfound
    have hstop : Fails (report o d).1 := by
      rw [report, hsearch]
      exact fails_error _
    exact iff_of_true hstop (.search hfound)
  | ok files =>
    rw [fails_report_of_found hfound, Batch.fails_parseFiles]
    constructor
    · rintro ⟨hstrict, p, hp, e, he⟩
      exact .tree hstrict hfound hp he
    · rintro (hstop | ⟨hstrict, hfiles, hp, he⟩)
      · simp [hfound] at hstop
      · obtain rfl := Except.ok.inj (hfound.symm.trans hfiles)
        exact ⟨hstrict, _, hp, _, he⟩

theorem execute_of_unreported {o : Options} {d : Disk} (h : Unreported o d) :
    (execute o d).code = 1 ∧ (execute o d).output = [] ∧ (execute o d).disk = d := by
  obtain ⟨e, he⟩ := fails_report.2 h
  rcases hreport : report o d with ⟨result, log⟩
  obtain rfl : result = .error e := by simpa [hreport] using he
  rw [execute, hreport]
  exact ⟨rfl, rfl, rfl⟩

/-! ### Running -/

section
variable {read : OptionFile.Reader} {a : Arguments} {env : Environment} {d : Disk}

theorem run_of_listLocales (h : a.listLocales = true) :
    run read a env d = { output := localeList, disk := d } := by
  rw [run, if_pos h]

variable (hlist : a.listLocales = false)
include hlist

theorem run_of_invalid (h : Options.Invalid read a env d) :
    (run read a env d).code = 2 ∧ (run read a env d).output = [] ∧
      (run read a env d).disk = d := by
  obtain ⟨e, he⟩ := Options.fails_load.2 h
  simp [run, hlist, he]

theorem run_of_load {o : Options} (h : Options.load read a env d = .ok o) :
    run read a env d = if a.dryRun then { output := o.dump, disk := d } else execute o d := by
  simp [run, hlist, h, (Options.resolved_of_load h).dryRun]

end

theorem execute_of_report {o : Options} {d : Disk} {r : Report} (h : (report o d).1 = .ok r) :
    (execute o d).code = (deliver o r d).code ∧ (execute o d).output = (deliver o r d).output ∧
      (execute o d).disk = (deliver o r d).disk := by
  rcases hreport : report o d with ⟨result, log⟩
  obtain rfl : result = .ok r := by simpa [hreport] using h
  rw [execute, hreport]
  exact ⟨rfl, rfl, rfl⟩

/-- What a report that could be delivered leaves behind. -/
theorem written_of_deliver {o : Options} {r : Report} {d : Disk} (hd : d.Unlinked)
    (hformats : ∀ t ∈ o.targets, Format.ofPath t.path = some t.format)
    (h : (deliver o r d).code = 0) :
    Written r o.view (o.targets.map (·.path)) d (deliver o r d).disk ∧
      (deliver o r d).output = if o.targets = [] then r.render .text o.view else [] := by
  unfold deliver at h ⊢
  cases htargets : o.targets with
  | nil => exact ⟨.nil d, rfl⟩
  | cons t ts =>
    rw [htargets] at h hformats
    exact ⟨written_of_writeTargets hd hformats h, output_writeTargets _ d⟩

theorem code_writeTargets_le (r : Report) (view : View) (ts : List Target) (d : Disk) :
    (writeTargets r view d ts).code ≤ 1 := by
  induction ts generalizing d with
  | nil => exact Nat.zero_le 1
  | cons t ts ih =>
    rcases writeTargets_cons r view t ts d with ⟨hcode, -⟩ | ⟨d₁, d₂, -, -, hrest⟩
    · exact Nat.le_of_eq hcode
    · rw [hrest]
      exact ih d₂

theorem code_execute_le (o : Options) (d : Disk) : (execute o d).code ≤ 1 := by
  rcases hreport : report o d with ⟨e | r, log⟩
  · simp [execute, hreport]
  · simp only [execute, hreport, deliver]
    by_cases hnone : o.targets.isEmpty = true
    · simp [hnone]
    · rw [if_neg hnone]
      exact code_writeTargets_le ..

/-! ### Traces -/

section
variable {read : OptionFile.Reader} {a : Arguments} {env : Environment} {d : Disk}

theorem invalid_of_code (h : (run read a env d).code = 2) :
    a.listLocales = false ∧ Options.Invalid read a env d := by
  cases hlist : a.listLocales with
  | true => simp [run_of_listLocales hlist] at h
  | false =>
    refine ⟨rfl, ?_⟩
    cases hload : Options.load read a env d with
    | error e => exact Options.fails_load.1 ⟨e, hload⟩
    | ok o =>
      -- with options resolved the code is at most one
      rw [run_of_load hlist hload] at h
      by_cases hdry : a.dryRun = true
      · simp [hdry] at h
      · rw [if_neg hdry] at h
        have hle := code_execute_le o d
        omega

theorem disk_of_shown (h : a.listLocales = true ∨ a.dryRun = true) : (run read a env d).disk = d := by
  cases hlist : a.listLocales with
  | true => rw [run_of_listLocales hlist]
  | false =>
    have hdry : a.dryRun = true := by simpa [hlist] using h
    cases hload : Options.load read a env d with
    | error e => exact (run_of_invalid hlist (Options.fails_load.1 ⟨e, hload⟩)).2.2
    | ok o => rw [run_of_load hlist hload, if_pos hdry]

/-- An ordinary run that ends with 0 got past its options and its report. -/
theorem reported_of_code (hlist : a.listLocales = false) (hdry : a.dryRun = false)
    (h : (run read a env d).code = 0) :
    ∃ o r, Options.load read a env d = .ok o ∧ (report o d).1 = .ok r ∧
      (deliver o r d).code = 0 ∧ (run read a env d).output = (deliver o r d).output ∧
      (run read a env d).disk = (deliver o r d).disk := by
  cases hload : Options.load read a env d with
  | error e =>
    have hcode := (run_of_invalid hlist (Options.fails_load.1 ⟨e, hload⟩)).1
    omega
  | ok o =>
    rw [run_of_load hlist hload, if_neg (by simp [hdry])] at h ⊢
    cases hreport : (report o d).1 with
    | error e =>
      have hcode := (execute_of_unreported (fails_report.1 ⟨e, hreport⟩)).1
      omega
    | ok r =>
      obtain ⟨hcode, houtput, hdisk⟩ := execute_of_report hreport
      exact ⟨o, r, rfl, hreport, hcode ▸ h, houtput, hdisk⟩

end

/-- The ending that a run has to have, with a reader of option files. -/
structure Accounted (read : OptionFile.Reader) (a : Arguments) (env : Environment) (d : Disk)
    (e : Ending) : Prop where
  invalid : a.listLocales = false → Options.Invalid read a env d →
    e.code = 2 ∧ e.output = [] ∧ e.disk = d
  /-- No other run ends with this code. -/
  invalidOnly : e.code = 2 → a.listLocales = false ∧ Options.Invalid read a env d
  unreported : a.listLocales = false → a.dryRun = false →
    ∀ o, Options.load read a env d = .ok o → Unreported o d →
      e.code = 1 ∧ e.output = [] ∧ e.disk = d
  shown : a.listLocales = true ∨ a.dryRun = true → e.disk = d
  reported : a.listLocales = false → a.dryRun = false → e.code = 0 →
    ∃ f o r, Options.fileOf read a d = .ok f ∧ Options.load read a env d = .ok o ∧
      (report o d).1 = .ok r ∧ Written r o.view (Options.reportPaths a f) d e.disk ∧
      e.output = if Options.reportPaths a f = [] then r.render .text o.view else []

/-- CORRECT (traces): a run whose environment, option file, expression or report file is invalid
    ends with 2, and only such a run does; a run without a report ends with 1. Both print and write
    nothing. Showing languages or options writes nothing. A run that ends with 0 has written the
    report to its targets and changed nothing else but to make the directories above them; it
    prints the report if it has no target. This holds with any reader of option files. -/
theorem run_accounted (read : OptionFile.Reader) (a : Arguments) (env : Environment) {d : Disk}
    (hd : d.Unlinked) : Accounted read a env d (run read a env d) where
  invalid := run_of_invalid
  invalidOnly := invalid_of_code
  unreported hlist hdry o hload hno := by
    rw [run_of_load hlist hload, hdry]
    exact execute_of_unreported hno
  shown := disk_of_shown
  reported hlist hdry hcode := by
    obtain ⟨o, r, hload, hreport, hdelivered, houtput, hdisk⟩ := reported_of_code hlist hdry hcode
    obtain ⟨-, hformats, f, hfile, hpaths⟩ := Options.resolved_of_load hload
    obtain ⟨hwritten, hprinted⟩ := written_of_deliver hd hformats hdelivered
    refine ⟨f, o, r, hfile, hload, hreport, ?_, ?_⟩
    · rwa [hdisk, ← hpaths]
    · rw [houtput, hprinted, ← hpaths]
      simp only [List.map_eq_nil_iff]

/-- An option file whose expression has no meaning. -/
def shopOptions : Text := "tags: \"~@a,@b\"\n".toList

/-- A disk with a feature file and an option file. -/
def shopDisk : Disk :=
  { items :=
      [(["a.feature".toList], .file (String.ofList "Feature: f\n".toList).toUTF8),
       (["c.yml".toList], .file (String.ofList shopOptions).toUTF8)] }

/-- What a reader makes of the option file; it refuses any other text. -/
def shopReader : OptionFile.Reader := fun t =>
  if t = shopOptions then some { tags := ["~@a,@b".toList] } else none

/-- Reports in two formats below a new directory, one of them named twice. -/
def reporting : Arguments where
  input := some "a.feature".toList
  outputs := ["out/a.txt".toList, "out/../out/a.txt".toList, "out/a.json".toList]

/-- The option file chooses the tags. -/
def mistaken : Arguments := { config := some "c.yml".toList }

/-- The option file is there, but the command line chooses the tags. -/
def overriding : Arguments :=
  { config := some "c.yml".toList, tags := ["@x".toList], dryRun := true }

theorem unlinked_shopDisk : shopDisk.Unlinked :=
  Disk.unlinked_of_items (by simp [shopDisk])

theorem featureFiles_shopDisk :
    (Discovery.featureFiles shopDisk "a.feature".toList).found = .ok ["a.feature".toList] := by
  have hsearch : Discovery.search shopDisk "a.feature".toList =
      ⟨.ok ["a.feature".toList], []⟩ := rfl
  have hordered : Path.ordered ["a.feature".toList] = ["a.feature".toList] :=
    Path.ordered_of_increasing (List.pairwise_singleton _ _)
  simp only [Discovery.featureFiles, hsearch, hordered]

theorem load_shopDisk : OptionFile.load shopReader shopDisk "c.yml".toList =
    .ok { tags := ["~@a,@b".toList] } := by
  have hread : shopDisk.readText "c.yml".toList = .ok shopOptions :=
    Disk.readText_of_holds ⟨["c.yml".toList], rfl, rfl⟩
  have hwritten : Text.isBlankText shopOptions = false := by decide
  have htext : shopReader shopOptions = some { tags := ["~@a,@b".toList] } := if_pos rfl
  simp only [OptionFile.load, hread, hwritten, htext, Bool.false_eq_true, if_false]

theorem meaningless_mixed : Expression.Meaningless "~@a,@b".toList := by
  refine .mixed (s := "~@a".toList) (t := "@b".toList) ?_ ?_ ?_ ?_ <;> decide

theorem run_accounted_shopDisk :
    let run := fun a => run shopReader a [] shopDisk
    shopDisk.Unlinked ∧
      ((run reporting).code = 0 ∧
        ∃ r, Written r .feature reporting.outputs shopDisk (run reporting).disk) ∧
      ((run mistaken).code = 2 ∧ (run mistaken).disk = shopDisk) ∧
      ((run { input := some "gone".toList }).code = 1 ∧
        (run { input := some "gone".toList }).disk = shopDisk) ∧
      (run overriding).disk = shopDisk := by
  intro run
  have hd := unlinked_shopDisk
  have hload : ∃ o, Options.load shopReader reporting [] shopDisk = .ok o ∧
      o.input = "a.feature".toList ∧ o.settings.strict = false ∧ o.view = .feature ∧
      ∀ r, (deliver o r shopDisk).code = 0 := ⟨_, rfl, rfl, rfl, rfl, fun _ => rfl⟩
  obtain ⟨o, hload, hinput, hstrict, hview, hdeliver⟩ := hload
  have hcode : (run reporting).code = 0 := by
    cases hreport : (report o shopDisk).1 with
    | error e =>
      rcases fails_report.1 ⟨e, hreport⟩ with hstop | ⟨hstrict', -, -, -⟩
      · rw [hinput, featureFiles_shopDisk] at hstop
        cases hstop
      · simp [hstrict] at hstrict'
    | ok r =>
      rw [show run reporting = _ from run_of_load rfl hload, if_neg (by decide),
        (execute_of_report hreport).1]
      exact hdeliver r
  refine ⟨hd, ⟨hcode, ?_⟩, ?_, ?_, ?_⟩
  · obtain ⟨f, o', r, hf, ho', -, hwritten, -⟩ :=
      (run_accounted shopReader reporting [] hd).reported rfl rfl hcode
    obtain rfl := Except.ok.inj (hload.symm.trans ho')
    obtain rfl := Except.ok.inj hf
    exact ⟨r, hview ▸ hwritten⟩
  · have hinvalid : Options.Invalid shopReader mistaken [] shopDisk :=
      .expression load_shopDisk List.mem_cons_self meaningless_mixed
    obtain ⟨hcode, -, hdisk⟩ := (run_accounted shopReader mistaken [] hd).invalid rfl hinvalid
    exact ⟨hcode, hdisk⟩
  · obtain ⟨hcode, -, hdisk⟩ :=
      (run_accounted shopReader { input := some "gone".toList } [] hd).unreported rfl rfl _ rfl
        (.search rfl)
    exact ⟨hcode, hdisk⟩
  · exact (run_accounted shopReader overriding [] hd).shown (.inr rfl)

/-- An expression that the command line replaces is not looked at, whatever is wrong with it. -/
theorem replaced_expression_not_looked_at :
    Arguments.read ["--config".toList, "c.yml".toList, "--tags".toList, "@x".toList,
        "--dry-run".toList] = .ok overriding ∧
      (∃ f, Options.fileOf shopReader overriding shopDisk = .ok f ∧
        ∃ raw ∈ f.tags, Expression.Meaningless raw) ∧
      overriding.listLocales = false ∧ (run shopReader overriding [] shopDisk).code = 0 := by
  have hfile : Options.fileOf shopReader overriding shopDisk =
      .ok { tags := ["~@a,@b".toList] } := load_shopDisk
  have hload : ∃ o, Options.load shopReader overriding [] shopDisk = .ok o := by
    rw [Options.load_eq, hfile]
    exact ⟨_, rfl⟩
  obtain ⟨o, hload⟩ := hload
  refine ⟨by decide, ⟨_, hfile, _, List.mem_cons_self, meaningless_mixed⟩, rfl, ?_⟩
  rw [run_of_load rfl hload, if_pos (show overriding.dryRun = true from rfl)]

end Command
end GherkinIndex
