import GherkinIndex.Log
import GherkinIndex.Path.Root

/-! Settings of a run.

    Settings start from environment variables and are overridden by whatever takes precedence over
    them. Words are read without regard to case and to blanks around them; no letter outside ASCII
    becomes a letter of one of these words in lower case. -/

namespace GherkinIndex

/-- A setting that cannot be interpreted. -/
structure InvalidValue where
  key : Text
  value : Text
  reason : Text
  deriving DecidableEq

def InvalidValue.message (e : InvalidValue) : Text :=
  "invalid value `".toList ++ e.value ++ "` for ".toList ++ e.key ++ ": ".toList ++ e.reason

/-- The level with a name, also `warning` for `warn`. -/
def LogLevel.named? (name : Text) : Option LogLevel :=
  if name = "warning".toList then some .warn
  else [LogLevel.trace, .debug, .info, .warn, .error].find? (·.label == name)

/-- The level named by the value of a key. -/
def LogLevel.ofValue (key value : Text) : Except InvalidValue LogLevel :=
  match named? (Text.lower (Text.trim value)) with
  | some l => .ok l
  | none => .error ⟨key, value, "expected one of: trace, debug, info, warn, error".toList⟩

def LogLevel.ofText (value : Text) : Except InvalidValue LogLevel :=
  ofValue "log level".toList value

/-- A count that fits in 64 bits; a plus sign may stand before its digits. -/
def readCount (t : Text) : Option Nat :=
  let digits := match t with
    | '+' :: rest => rest
    | _ => t
  (Text.readNat digits).filter (· < Nat.pow 2 64)

structure Settings where
  logLevel : LogLevel := .warn
  /-- The first file without a tree ends the run. -/
  strict : Bool := false
  /-- Workers; zero leaves the number to the machine. -/
  jobs : Nat := 0
  /-- The marker that paths are named from, unless it is derived from the input. -/
  root : Option Text := none
  deriving DecidableEq

/-- The settings that one source provides. -/
structure Overrides where
  logLevel : Option LogLevel := none
  strict : Option Bool := none
  jobs : Option Nat := none
  root : Option Text := none
  deriving DecidableEq

/-- How a batch is run. -/
structure BatchOptions where
  strict : Bool
  jobs : Nat
  root : Text
  deriving DecidableEq

/-- Variables and their values. -/
abbrev Environment := List (Text × Text)

namespace Settings

def logLevelKey : Text := "CUKEDEX_LOG_LEVEL".toList
def modeKey : Text := "CUKEDEX_MODE".toList
def jobsKey : Text := "CUKEDEX_JOBS".toList
def rootKey : Text := "CUKEDEX_ROOT".toList

/-- Whether a mode is a strict one. -/
def strictMode (value : Text) : Except InvalidValue Bool :=
  let word := Text.lower (Text.trim value)
  if ["strict".toList, "test".toList].contains word then .ok true
  else if [[], "lenient".toList, "default".toList].contains word then .ok false
  else .error ⟨modeKey, value, "expected `strict`, `test` or `lenient`".toList⟩

def jobCount (value : Text) : Except InvalidValue Nat :=
  match readCount (Text.trim value) with
  | some n => .ok n
  | none => .error ⟨jobsKey, value, "expected a non-negative integer".toList⟩

/-- The value of a variable that is set, else the default. -/
def setting {α : Type} (env : Environment) (key : Text) (default : α)
    (f : Text → Except InvalidValue α) : Except InvalidValue α :=
  match env.lookup key with
  | none => .ok default
  | some v => f v

/-- Settings from the environment; a blank root marker counts as unset. -/
def ofEnvironment (env : Environment) : Except InvalidValue Settings := do
  let logLevel ← setting env logLevelKey .warn (LogLevel.ofValue logLevelKey)
  let strict ← setting env modeKey false strictMode
  let jobs ← setting env jobsKey 0 jobCount
  return { logLevel, strict, jobs, root := (env.lookup rootKey).filter (!Text.isBlankText ·) }

/-- What `o` provides, else what was set before. -/
def override (s : Settings) (o : Overrides) : Settings where
  logLevel := o.logLevel.getD s.logLevel
  strict := o.strict.getD s.strict
  jobs := o.jobs.getD s.jobs
  root := o.root.or s.root

/-- Batch options with the configured marker, else the derived one. -/
def batch (s : Settings) (derivedRoot : Option Text) : BatchOptions where
  strict := s.strict
  jobs := s.jobs
  root := (s.root.or derivedRoot).getD Path.defaultRoot

end Settings
end GherkinIndex
