import Mathlib.Data.List.Basic
import GherkinIndex.Options.Resolve
import GherkinIndex.Proofs.Tag.Expression

/-! When the options of a run cannot be resolved.

    Four things can be wrong: a variable of the environment, the option file, a tag expression or the
    name of a report file. What the command line replaces is not looked at: any filter of its own
    stands for all expressions of the option file, any report file of its own for all files there.
    All of this holds for any reader of option files.

        --tags @x  ▸  tags: "~@a,@b"      in force: @x, which has a meaning            -/

namespace GherkinIndex

/-! ### What can be wrong -/

/-- A variable is set to something that its setting cannot be. -/
inductive Settings.BadVariable (env : Environment) : Prop
  | logLevel {v : Text} (set : env.lookup logLevelKey = some v)
      (bad : LogLevel.named? (Text.lower (Text.trim v)) = none)
  | mode {v : Text} (set : env.lookup modeKey = some v)
      (bad : Text.lower (Text.trim v) ∉
        ["strict".toList, "test".toList, [], "lenient".toList, "default".toList])
  | jobs {v : Text} (set : env.lookup jobsKey = some v) (bad : readCount (Text.trim v) = none)

/-- A file has no text, or one that is neither blank nor an option file. -/
inductive OptionFile.Bad (read : OptionFile.Reader) (d : Disk) (path : Text) : Prop
  | unreadable {cause : Fault} (missing : d.readText path = .error cause)
  | invalid {t : Text} (found : d.readText path = .ok t) (written : Text.isBlankText t = false)
      (bad : read t = none)

/-- A comma list without tags, or with negated and plain ones. -/
inductive Expression.Meaningless (raw : Text) : Prop
  | empty (none : terms raw = [])
  | mixed {s t : Text} (hs : s ∈ terms raw) (ht : t ∈ terms raw) (negated : isNegated s = true)
      (plain : isNegated t = false)

namespace Options

/-- The option file of a command line; one that names none has an empty one. -/
def fileOf (read : OptionFile.Reader) (a : Arguments) (d : Disk) :
    Except OptionFile.LoadError OptionFile :=
  match a.config with
  | none => .ok {}
  | some path => OptionFile.load read d path

/-- The tag expressions that are in force. -/
def expressions (a : Arguments) (f : OptionFile) : List Text :=
  if a.hasFilter then a.tags else f.tags

/-- A report file at its place below `home`. -/
def reportPath (home : Option Text) (p : Text) : Text :=
  match home with
  | none => p
  | some h => Path.join h p

/-- The paths of the report files that are in force. -/
def reportPaths (a : Arguments) (f : OptionFile) : List Text :=
  (if a.outputs.isEmpty then f.outputs else a.outputs).map
    (reportPath (a.outputHome.or f.outputHome))

/-- Why the options of a command line cannot be resolved. -/
inductive Invalid (read : OptionFile.Reader) (a : Arguments) (env : Environment) (d : Disk) : Prop
  | environment (bad : Settings.BadVariable env)
  | file {path : Text} (given : a.config = some path) (bad : OptionFile.Bad read d path)
  | expression {f : OptionFile} {raw : Text} (file : fileOf read a d = .ok f)
      (inForce : raw ∈ expressions a f) (bad : Expression.Meaningless raw)
  | extension {f : OptionFile} {p : Text} (file : fileOf read a d = .ok f)
      (inForce : p ∈ reportPaths a f) (bad : Format.ofPath p = none)

end Options

/-! ### Failing -/

/-- A computation ends with an error. -/
def Fails {ε α : Type} (x : Except ε α) : Prop := ∃ e, x = .error e

section
variable {ε ε' α β : Type}

@[simp] theorem fails_error (e : ε) : Fails (.error e : Except ε α) := ⟨e, rfl⟩

@[simp] theorem not_fails_ok (a : α) : ¬ Fails (.ok a : Except ε α) := by rintro ⟨e, h⟩; cases h

theorem fails_mapError {x : Except ε α} {g : ε → ε'} : Fails (x.mapError g) ↔ Fails x := by
  cases x <;> simp [Except.mapError]

theorem mapError_eq_ok {x : Except ε α} {g : ε → ε'} {a : α} :
    x.mapError g = .ok a ↔ x = .ok a := by
  cases x <;> simp [Except.mapError]

theorem exists_of_bind_eq_ok {x : Except ε α} {k : α → Except ε β} {b : β}
    (h : x >>= k = .ok b) : ∃ a, x = .ok a ∧ k a = .ok b := by
  cases x with
  | error e => cases h
  | ok a => exact ⟨a, rfl, h⟩

/-- A sequence fails in its first part or, after that, in its second. -/
theorem fails_bind {x : Except ε α} {k : α → Except ε β} :
    Fails (x >>= k) ↔ Fails x ∨ ∃ a, x = .ok a ∧ Fails (k a) := by
  cases x with
  | error e => simp [bind, Except.bind]
  | ok a => simp [bind, Except.bind]

theorem fails_bind_of_forall {x : Except ε α} {k : α → Except ε β} (h : ∀ a, Fails (k a)) :
    Fails (x >>= k) := by
  cases x with
  | error e => exact fails_error e
  | ok a => exact h a

end

/-! ### The environment -/

namespace Settings

theorem fails_setting {α : Type} {env : Environment} {key : Text} {default : α}
    {f : Text → Except InvalidValue α} :
    Fails (setting env key default f) ↔ ∃ v, env.lookup key = some v ∧ Fails (f v) := by
  unfold setting
  cases env.lookup key <;> simp

theorem fails_ofValue {key v : Text} :
    Fails (LogLevel.ofValue key v) ↔ LogLevel.named? (Text.lower (Text.trim v)) = none := by
  unfold LogLevel.ofValue
  cases LogLevel.named? (Text.lower (Text.trim v)) <;> simp

theorem fails_strictMode {v : Text} : Fails (strictMode v) ↔ Text.lower (Text.trim v) ∉
    ["strict".toList, "test".toList, [], "lenient".toList, "default".toList] := by
  unfold strictMode
  generalize Text.lower (Text.trim v) = word
  dsimp only
  have hwords : word ∈ ["strict".toList, "test".toList, [], "lenient".toList, "default".toList] ↔
      ["strict".toList, "test".toList].contains word = true ∨
        [[], "lenient".toList, "default".toList].contains word = true := by
    rw [List.contains_iff_mem, List.contains_iff_mem, ← List.mem_append]
    rfl
  rw [hwords]
  cases ["strict".toList, "test".toList].contains word <;>
    cases [[], "lenient".toList, "default".toList].contains word <;> simp

theorem fails_jobCount {v : Text} : Fails (jobCount v) ↔ readCount (Text.trim v) = none := by
  unfold jobCount
  cases readCount (Text.trim v) <;> simp

theorem fails_ofEnvironment {env : Environment} : Fails (ofEnvironment env) ↔ BadVariable env := by
  constructor
  · intro h
    rcases fails_bind.1 h with hlevel | ⟨_, -, h⟩
    · obtain ⟨v, hset, hbad⟩ := fails_setting.1 hlevel
      exact .logLevel hset (fails_ofValue.1 hbad)
    rcases fails_bind.1 h with hmode | ⟨_, -, h⟩
    · obtain ⟨v, hset, hbad⟩ := fails_setting.1 hmode
      exact .mode hset (fails_strictMode.1 hbad)
    rcases fails_bind.1 h with hjobs | ⟨_, -, h⟩
    · obtain ⟨v, hset, hbad⟩ := fails_setting.1 hjobs
      exact .jobs hset (fails_jobCount.1 hbad)
    exact absurd h (not_fails_ok _)
  · rintro (⟨hset, hbad⟩ | ⟨hset, hbad⟩ | ⟨hset, hbad⟩)
    · exact fails_bind.2 (.inl (fails_setting.2 ⟨_, hset, fails_ofValue.2 hbad⟩))
    · exact fails_bind_of_forall fun _ =>
        fails_bind.2 (.inl (fails_setting.2 ⟨_, hset, fails_strictMode.2 hbad⟩))
    · exact fails_bind_of_forall fun _ => fails_bind_of_forall fun _ =>
        fails_bind.2 (.inl (fails_setting.2 ⟨_, hset, fails_jobCount.2 hbad⟩))

end Settings

/-! ### The option file -/

section
variable {read : OptionFile.Reader} {d : Disk}

theorem OptionFile.fails_load {path : Text} : Fails (load read d path) ↔ Bad read d path := by
  rw [load]
  cases htext : d.readText path with
  | error cause => exact iff_of_true (fails_error _) (.unreadable htext)
  | ok t =>
    have hwhy : Bad read d path ↔ Text.isBlankText t = false ∧ read t = none := by
      constructor
      · rintro (⟨hmissing⟩ | ⟨hfound, hwritten, hbad⟩)
        · simp [htext] at hmissing
        · obtain rfl := Except.ok.inj (htext.symm.trans hfound)
          exact ⟨hwritten, hbad⟩
      · rintro ⟨hwritten, hbad⟩
        exact .invalid htext hwritten hbad
    rw [hwhy]
    by_cases hblank : Text.isBlankText t = true
    · simp [hblank]
    · cases hread : read t <;> simp [hblank, hread]

theorem Options.fails_fileOf {a : Arguments} :
    Fails (fileOf read a d) ↔ ∃ path, a.config = some path ∧ OptionFile.Bad read d path := by
  rw [fileOf]
  cases a.config with
  | none => simp
  | some path => simp [OptionFile.fails_load]

end

/-! ### Tag expressions -/

theorem Expression.meaningless_iff {raw : Text} : Meaningless raw ↔ ∃ e, Refused raw e := by
  constructor
  · rintro (hnone | ⟨hs, ht, hnegated, hplain⟩)
    · exact ⟨_, .empty hnone⟩
    · exact ⟨_, .mixed hs ht hnegated hplain⟩
  · rintro ⟨_, hnone | ⟨hs, ht, hnegated, hplain⟩⟩
    · exact .empty hnone
    · exact .mixed hs ht hnegated hplain

theorem TagFilter.fails_ofExpressions {raws : List Text} :
    Fails (ofExpressions raws) ↔ ∃ raw ∈ raws, Expression.Meaningless raw := by
  simp only [Fails, exists_ofExpressions_error_iff, Expression.meaningless_iff]

namespace Options

theorem fails_filterFrom {a : Arguments} {f : OptionFile} :
    Fails (filterFrom a f) ↔ ∃ raw ∈ expressions a f, Expression.Meaningless raw := by
  rw [← TagFilter.fails_ofExpressions]
  by_cases hgiven : a.hasFilter = true
  · rw [filterFrom, expressions, if_pos hgiven, if_pos hgiven, argumentsFilter]
    cases TagFilter.ofExpressions a.tags <;> simp
  · rw [filterFrom, expressions, if_neg hgiven, if_neg hgiven, fileFilter]
    cases TagFilter.ofExpressions f.tags <;> simp

/-! ### Report files -/

theorem targetsAt_cons (home : Option Text) (p : Text) (ps : List Text) :
    targetsAt home (p :: ps) = match Format.ofPath (reportPath home p), targetsAt home ps with
      | none, _ => .error (.unknownFormat (reportPath home p))
      | some _, .error e => .error e
      | some format, .ok ts => .ok (⟨reportPath home p, format⟩ :: ts) := rfl

theorem fails_targetsAt {home : Option Text} {ps : List Text} :
    Fails (targetsAt home ps) ↔ ∃ p ∈ ps.map (reportPath home), Format.ofPath p = none := by
  induction ps with
  | nil => simp [targetsAt]
  | cons p ps ih =>
    rw [List.map_cons, List.exists_mem_cons_iff, ← ih, targetsAt_cons]
    cases Format.ofPath (reportPath home p) <;> cases targetsAt home ps <;> simp

/-- The resolved targets are the report files in force, each with the format of its extension. -/
theorem targets_of_targetsAt {home : Option Text} {ps : List Text} {ts : List Target}
    (h : targetsAt home ps = .ok ts) :
    ts.map (·.path) = ps.map (reportPath home) ∧
      ∀ t ∈ ts, Format.ofPath t.path = some t.format := by
  induction ps generalizing ts with
  | nil =>
    obtain rfl := Except.ok.inj h
    simp
  | cons p ps ih =>
    rw [targetsAt_cons] at h
    cases hformat : Format.ofPath (reportPath home p) with
    | none => simp [hformat] at h
    | some format =>
      cases hrest : targetsAt home ps with
      | error e => simp [hformat, hrest] at h
      | ok rest =>
        obtain rfl : ⟨reportPath home p, format⟩ :: rest = ts := by simpa [hformat, hrest] using h
        obtain ⟨hpaths, hformats⟩ := ih hrest
        simp only [List.map_cons, hpaths, List.forall_mem_cons]
        exact ⟨trivial, hformat, hformats⟩

/-! ### All of them -/

theorem fails_resolve {a : Arguments} {f : OptionFile} {env : Settings} :
    Fails (resolve a f env) ↔ (∃ raw ∈ expressions a f, Expression.Meaningless raw) ∨
      ∃ p ∈ reportPaths a f, Format.ofPath p = none := by
  rw [← fails_filterFrom, reportPaths, ← fails_targetsAt, ← targetsFrom]
  unfold resolve
  cases filterFrom a f <;> cases targetsFrom a f <;>
    simp [bind, Except.bind, pure, Except.pure]

section
variable {read : OptionFile.Reader} {a : Arguments} {env : Environment} {d : Disk}

theorem load_eq (read : OptionFile.Reader) (a : Arguments) (env : Environment) (d : Disk) :
    load read a env d = (do
      let settings ← (Settings.ofEnvironment env).mapError .environment
      let file ← (fileOf read a d).mapError .file
      resolve a file settings) := by
  unfold load fileOf
  cases a.config <;> rfl

/-- Options cannot be resolved exactly if something in force is invalid. -/
theorem fails_load : Fails (load read a env d) ↔ Invalid read a env d := by
  rw [load_eq]
  constructor
  · intro h
    rcases fails_bind.1 h with henv | ⟨_, -, h⟩
    · exact .environment (Settings.fails_ofEnvironment.1 (fails_mapError.1 henv))
    rcases fails_bind.1 h with hfile | ⟨f, hfile, h⟩
    · obtain ⟨path, hgiven, hbad⟩ := fails_fileOf.1 (fails_mapError.1 hfile)
      exact .file hgiven hbad
    rcases fails_resolve.1 h with ⟨raw, hraw, hbad⟩ | ⟨p, hp, hbad⟩
    · exact .expression (mapError_eq_ok.1 hfile) hraw hbad
    · exact .extension (mapError_eq_ok.1 hfile) hp hbad
  · rintro (henv | ⟨hgiven, hbad⟩ | ⟨hfile, hraw, hbad⟩ | ⟨hfile, hp, hbad⟩)
    · exact fails_bind.2 (.inl (fails_mapError.2 (Settings.fails_ofEnvironment.2 henv)))
    · exact fails_bind_of_forall fun _ =>
        fails_bind.2 (.inl (fails_mapError.2 (fails_fileOf.2 ⟨_, hgiven, hbad⟩)))
    · exact fails_bind_of_forall fun _ => fails_bind.2
        (.inr ⟨_, mapError_eq_ok.2 hfile, fails_resolve.2 (.inl ⟨_, hraw, hbad⟩)⟩)
    · exact fails_bind_of_forall fun _ => fails_bind.2
        (.inr ⟨_, mapError_eq_ok.2 hfile, fails_resolve.2 (.inr ⟨_, hp, hbad⟩)⟩)

/-- What resolved options take over from the command line and the option file. -/
structure Resolved (read : OptionFile.Reader) (a : Arguments) (d : Disk) (o : Options) : Prop where
  dryRun : o.dryRun = a.dryRun
  formats : ∀ t ∈ o.targets, Format.ofPath t.path = some t.format
  paths : ∃ f, fileOf read a d = .ok f ∧ o.targets.map (·.path) = reportPaths a f

theorem resolved_of_load {o : Options} (h : load read a env d = .ok o) : Resolved read a d o := by
  rw [load_eq] at h
  obtain ⟨settings, -, h⟩ := exists_of_bind_eq_ok h
  obtain ⟨f, hfile, h⟩ := exists_of_bind_eq_ok h
  obtain ⟨filter, -, h⟩ := exists_of_bind_eq_ok h
  obtain ⟨targets, htargets, h⟩ := exists_of_bind_eq_ok h
  obtain rfl := Except.ok.inj h
  obtain ⟨hpaths, hformats⟩ := targets_of_targetsAt htargets
  exact ⟨rfl, hformats, f, mapError_eq_ok.1 hfile, hpaths⟩

end

end Options

end GherkinIndex
