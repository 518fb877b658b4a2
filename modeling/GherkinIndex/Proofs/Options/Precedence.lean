import GherkinIndex.Proofs.Options.Invalid

/-! Which source decides.

    Every setting comes from the first source that provides it. A filter and the list of report files
    are taken over as a whole: if the command line has one, the option file may say anything about it,
    meaningful or not, and the outcome is the same.

                     command line    option file    environment    default
        jobs             –               3               8             0       3
        report files     a.json          b.txt                                 a.json
        filter           –               tags @x                               @x            -/

namespace GherkinIndex

/-- The value of the first source that provides one, else the default. -/
inductive FirstProvided {α : Type} (default : α) : List (Option α) → α → Prop
  | default : FirstProvided default [] default
  | here (v : α) (sources : List (Option α)) : FirstProvided default (some v :: sources) v
  | later {sources : List (Option α)} {v : α} (rest : FirstProvided default sources v) :
      FirstProvided default (none :: sources) v

section
variable {α : Type}

theorem firstProvided_getD (default : α) (x : Option α) :
    FirstProvided default [x] (x.getD default) := by
  cases x with
  | none => exact .later .default
  | some v => exact .here v []

/-- A source in front of others overrides them. -/
theorem FirstProvided.cons {default v : α} {sources : List (Option α)}
    (h : FirstProvided default sources v) (x : Option α) :
    FirstProvided default (x :: sources) (x.getD v) := by
  cases x with
  | none => exact .later h
  | some w => exact .here w sources

theorem firstProvided_or (default : α) (x y : Option α) :
    FirstProvided default [x, y] ((x.or y).getD default) := by
  have h := (firstProvided_getD default y).cons x
  cases x <;> simpa using h

/-- A value may be left open by the default too. -/
theorem firstProvided_or_open (default x y : Option α) :
    FirstProvided default [x.map some, y.map some] (x.or (y.or default)) := by
  have h := firstProvided_or default (x.map some) (y.map some)
  cases x <;> cases y <;> simpa using h

end

/-! ### What a source provides -/

/-- A switch says something only if it is there. -/
def switched (b : Bool) : Option Bool := if b then some true else none

/-- A list is provided if something is in it. -/
def listed {α : Type} (xs : List α) : Option (List α) := if xs = [] then none else some xs

/-- Some tag of the command line decides which constructs are wanted. -/
def Arguments.GivesFilter (a : Arguments) : Prop :=
  a.tags ≠ [] ∨ a.filter.anyOf ≠ [] ∨ a.filter.allOf ≠ [] ∨ a.filter.noneOf ≠ []

theorem Arguments.hasFilter_iff (a : Arguments) : a.hasFilter = true ↔ a.GivesFilter := by
  have hfilter : a.filter = {} ↔
      a.filter.anyOf = [] ∧ a.filter.allOf = [] ∧ a.filter.noneOf = [] := by
    constructor
    · intro h
      simp [h]
    · rintro ⟨hany, hall, hnone⟩
      cases hf : a.filter
      simp_all
  rw [hasFilter, GivesFilter, Bool.not_eq_true', Bool.and_eq_false_iff]
  simp only [List.isEmpty_eq_false_iff, beq_eq_false_iff_ne, Ne, hfilter, not_and_or]

/-- Settings of which each is that of its variable, if that is set, else the default. -/
structure Settings.Supplied (env : Environment) (s : Settings) : Prop where
  logLevel : FirstProvided .warn
    [(env.lookup logLevelKey).bind fun v => LogLevel.named? (Text.lower (Text.trim v))] s.logLevel
  strict : FirstProvided false
    [(env.lookup modeKey).map fun v =>
      decide (Text.lower (Text.trim v) ∈ ["strict".toList, "test".toList])] s.strict
  jobs : FirstProvided 0 [(env.lookup jobsKey).bind fun v => readCount (Text.trim v)] s.jobs
  root : s.root = (env.lookup rootKey).filter (!Text.isBlankText ·)

namespace Options

/-- Options of which each comes from the first source that provides it. -/
structure Precedence (a : Arguments) (f : OptionFile) (env : Settings) (o : Options) : Prop where
  input : FirstProvided Path.defaultRoot [a.input, f.input] o.input
  view : FirstProvided .feature [a.view, f.view] o.view
  targets : ∃ paths home, FirstProvided [] [listed a.outputs, listed f.outputs] paths ∧
    FirstProvided none [a.outputHome.map some, f.outputHome.map some] home ∧
    o.targets.map (·.path) = paths.map (reportPath home)
  sort : FirstProvided false [switched a.sort, f.sort] o.sort
  logLevel : FirstProvided env.logLevel [a.logLevel, f.settings.logLevel] o.settings.logLevel
  strict : FirstProvided env.strict [switched a.strict, f.settings.strict] o.settings.strict
  jobs : FirstProvided env.jobs [a.jobs, f.settings.jobs] o.settings.jobs
  root : FirstProvided env.root [a.root.map some, f.settings.root.map some] o.settings.root
  parsedFrom : FirstProvided (Path.rootMarker o.input) [o.settings.root] o.batch.root

end Options

/-! ### The environment -/

namespace Settings

theorem setting_eq_ok {α : Type} {env : Environment} {key : Text} {default x : α}
    {f : Text → Except InvalidValue α} (h : setting env key default f = .ok x) :
    env.lookup key = none ∧ x = default ∨ ∃ v, env.lookup key = some v ∧ f v = .ok x := by
  rw [setting] at h
  cases hset : env.lookup key with
  | none =>
    rw [hset] at h
    exact .inl ⟨rfl, (Except.ok.inj h).symm⟩
  | some v =>
    rw [hset] at h
    exact .inr ⟨v, rfl, h⟩

/-- A variable that is set decides, one that is not leaves the default. -/
theorem firstProvided_of_setting {α : Type} {env : Environment} {key : Text} {default x : α}
    {f : Text → Except InvalidValue α} {g : Text → Option α}
    (h : setting env key default f = .ok x) (hfg : ∀ v y, f v = .ok y → g v = some y) :
    FirstProvided default [(env.lookup key).bind g] x := by
  rcases setting_eq_ok h with ⟨hunset, rfl⟩ | ⟨v, hset, hv⟩
  · rw [hunset]
    exact .later .default
  · rw [hset, Option.bind_some, hfg v x hv]
    exact .here x []

theorem strict_of_strictMode {v : Text} {b : Bool} (h : strictMode v = .ok b) :
    decide (Text.lower (Text.trim v) ∈ ["strict".toList, "test".toList]) = b := by
  simp only [strictMode] at h
  rw [← List.contains_eq_mem]
  by_cases hstrict : ["strict".toList, "test".toList].contains (Text.lower (Text.trim v)) = true
  · rw [if_pos hstrict] at h
    rw [hstrict]
    exact Except.ok.inj h
  · rw [if_neg hstrict] at h
    rw [Bool.not_eq_true] at hstrict
    rw [hstrict]
    by_cases hlenient : [[], "lenient".toList, "default".toList].contains
        (Text.lower (Text.trim v)) = true
    · rw [if_pos hlenient] at h
      exact Except.ok.inj h
    · rw [if_neg hlenient] at h
      cases h

theorem supplied_of_ofEnvironment {env : Environment} {s : Settings}
    (h : ofEnvironment env = .ok s) : Supplied env s := by
  obtain ⟨level, hlevel, h⟩ := exists_of_bind_eq_ok h
  obtain ⟨strict, hstrict, h⟩ := exists_of_bind_eq_ok h
  obtain ⟨jobs, hjobs, h⟩ := exists_of_bind_eq_ok h
  obtain rfl := Except.ok.inj h
  refine ⟨?_, ?_, ?_, rfl⟩
  · refine firstProvided_of_setting hlevel fun v y hy => ?_
    rw [LogLevel.ofValue] at hy
    cases hlevel : LogLevel.named? (Text.lower (Text.trim v)) <;> simp_all
  · rw [Option.map_eq_bind]
    refine firstProvided_of_setting hstrict fun v y hy => ?_
    rw [← strict_of_strictMode hy]
    rfl
  · refine firstProvided_of_setting hjobs fun v y hy => ?_
    rw [jobCount] at hy
    cases hcount : readCount (Text.trim v) <;> simp_all

end Settings

/-! ### Resolving -/

namespace Options
variable {a : Arguments} {f : OptionFile} {env : Settings}

/-- The report files that are in force are those of the first source that lists any. -/
theorem firstProvided_outputs (xs ys : List Text) :
    FirstProvided [] [listed xs, listed ys] (if xs.isEmpty then ys else xs) := by
  have h := firstProvided_or [] (listed xs) (listed ys)
  by_cases hx : xs = []
  · by_cases hy : ys = [] <;> simpa [listed, hx, hy] using h
  · simpa [listed, hx] using h

theorem precedence_of_resolve {o : Options} (h : resolve a f env = .ok o) :
    Precedence a f env o := by
  obtain ⟨filter, -, h⟩ := exists_of_bind_eq_ok h
  obtain ⟨targets, htargets, h⟩ := exists_of_bind_eq_ok h
  obtain rfl := Except.ok.inj h
  -- settings are overridden twice, by the option file and then by the command line
  exact {
    input := firstProvided_or ..
    view := firstProvided_or ..
    targets := by
      have hhome := firstProvided_or_open none a.outputHome f.outputHome
      rw [Option.or_none] at hhome
      exact ⟨_, _, firstProvided_outputs .., hhome, (targets_of_targetsAt htargets).1⟩
    sort := by
      have h := (firstProvided_getD false f.sort).cons (switched a.sort)
      cases hsort : a.sort <;> simpa [switched, hsort] using h
    logLevel := (firstProvided_getD env.logLevel f.settings.logLevel).cons a.logLevel
    strict := (firstProvided_getD env.strict f.settings.strict).cons (switched a.strict)
    jobs := (firstProvided_getD env.jobs f.settings.jobs).cons a.jobs
    root := firstProvided_or_open ..
    parsedFrom := by
      have h := firstProvided_getD (Path.rootMarker ((a.input.or f.input).getD Path.defaultRoot))
        ((env.override f.settings).override a.overrides).root
      cases hroot : ((env.override f.settings).override a.overrides).root <;>
        simpa [batch, Settings.batch, derivedRoot, hroot] using h }

/-- A filter of the command line stands for everything the option file says about tags. -/
theorem resolve_of_givesFilter (h : a.GivesFilter) (tags : List Text) (filter : Criteria) :
    resolve a { f with tags, filter } env = resolve a f env := by
  have hfilter : filterFrom a { f with tags, filter } = filterFrom a f := by
    rw [filterFrom, filterFrom, if_pos (a.hasFilter_iff.2 h), if_pos (a.hasFilter_iff.2 h)]
  rw [resolve, resolve, hfilter]
  rfl

/-- A report file of the command line stands for all of the option file. -/
theorem resolve_of_outputs (h : a.outputs ≠ []) (outputs : List Text) :
    resolve a { f with outputs } env = resolve a f env := by
  have htargets : targetsFrom a { f with outputs } = targetsFrom a f := by
    rw [targetsFrom, targetsFrom, if_neg (by simpa using h), if_neg (by simpa using h)]
  rw [resolve, resolve, htargets]
  rfl

/-- The filter of an option file puts its expressions and its criteria together. -/
theorem filter_of_resolve {o : Options} (hgiven : ¬ a.GivesFilter) (h : resolve a f env = .ok o) :
    ∃ g, TagFilter.ofExpressions f.tags = .ok g ∧
      o.filter = g.merge (TagFilter.unfiltered.add f.filter) := by
  obtain ⟨filter, hfilter, h⟩ := exists_of_bind_eq_ok h
  obtain ⟨targets, -, h⟩ := exists_of_bind_eq_ok h
  obtain rfl := Except.ok.inj h
  rw [filterFrom, if_neg (mt a.hasFilter_iff.1 hgiven), fileFilter] at hfilter
  cases hg : TagFilter.ofExpressions f.tags with
  | error e =>
    rw [hg] at hfilter
    cases hfilter
  | ok g =>
    rw [hg] at hfilter
    exact ⟨g, rfl, (Except.ok.inj hfilter).symm⟩

/-- CORRECT (precedence): every setting comes from the first source that provides it, and a filter or
    a list of report files on the command line leaves nothing of that of the option file, be it
    invalid. Otherwise the filter of the option file is in force. -/
theorem resolve_takes_first_source (a : Arguments) (f : OptionFile) (env : Settings) :
    (∀ o, resolve a f env = .ok o → Precedence a f env o) ∧
    (∀ vars, Settings.ofEnvironment vars = .ok env → env.Supplied vars) ∧
    (a.GivesFilter → ∀ tags filter,
      resolve a { f with tags, filter } env = resolve a f env) ∧
    (a.outputs ≠ [] → ∀ outputs, resolve a { f with outputs } env = resolve a f env) ∧
    (¬ a.GivesFilter → ∀ o, resolve a f env = .ok o →
      ∃ g, TagFilter.ofExpressions f.tags = .ok g ∧
        o.filter = g.merge (TagFilter.unfiltered.add f.filter)) :=
  ⟨fun _ => precedence_of_resolve, fun _ => Settings.supplied_of_ofEnvironment,
    resolve_of_givesFilter, resolve_of_outputs, fun hgiven _ => filter_of_resolve hgiven⟩

/-- A command line with a filter and a number of jobs, an option file with others and a filter that
    means nothing, and a strict environment. -/
theorem resolve_takes_first_source_of_all :
    let a : Arguments := { jobs := some 3, tags := ["@x".toList] }
    let f : OptionFile := { tags := ["~@a,@b".toList], view := some .tag,
                            settings := { jobs := some 8, root := some "specs".toList } }
    let vars : Environment := [(Settings.modeKey, " Strict".toList)]
    ∃ env o, Settings.ofEnvironment vars = .ok env ∧ env.Supplied vars ∧
      resolve a f env = .ok o ∧ Precedence a f env o ∧
      o.settings = ⟨.warn, true, 3, some "specs".toList⟩ ∧
      resolve a { f with tags := [] } env = .ok o := by
  intro a f vars
  have hload : ∃ env, Settings.ofEnvironment vars = .ok env ∧ ∃ o, resolve a f env = .ok o ∧
      o.settings = ⟨.warn, true, 3, some "specs".toList⟩ := ⟨_, rfl, _, rfl, rfl⟩
  obtain ⟨env, hvars, o, hresolve, hsettings⟩ := hload
  obtain ⟨hprecedence, hsupplied, hfilter, -, -⟩ := resolve_takes_first_source a f env
  have hgiven : a.GivesFilter := .inl (by simp [a])
  exact ⟨env, o, hvars, hsupplied vars hvars, hresolve, hprecedence o hresolve, hsettings,
    (hfilter hgiven [] {}).trans hresolve⟩

end Options
end GherkinIndex
