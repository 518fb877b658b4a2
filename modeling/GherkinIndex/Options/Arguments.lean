import GherkinIndex.Report.Basic
import GherkinIndex.Settings
import GherkinIndex.Tag.Filter

/-! Command line arguments.

    An option takes a value, attached or as the next word; a switch takes none.

        --input=specs  --input specs  -i specs  -ispecs  -i=specs

    A value that stands alone waits until the next option or switch is known, or the words end, and
    is looked at only then. So an unknown word hides a bad value that is still waiting. -/

namespace GherkinIndex

/-- An option: its value is needed. -/
inductive OptionKey where
  | input | config | output | outputHome | view | tags | anyOf | allOf | noneOf | jobs | root
  | logLevel
  deriving DecidableEq, Repr

inductive Switch where
  | sort | strict | dryRun | listLocales
  deriving DecidableEq, Repr

/-- What a word with a dash asks for. -/
inductive Flag where
  | option (key : OptionKey)
  | switch (s : Switch)
  | help
  | version
  deriving DecidableEq, Repr

/-- Why a command line is not run. -/
inductive UsageError where
  | unknownWord
  /-- No value, or an empty one where a path is needed. -/
  | missingValue
  /-- A value that cannot be interpreted. -/
  | refusedValue
  /-- An option with one value, or a switch, is given twice. -/
  | repeated
  /-- A switch is given a value. -/
  | switchWithValue
  | helpAsked
  | versionAsked
  deriving DecidableEq, Repr

/-- The exit code: what was asked to be shown is no failure. -/
def UsageError.code : UsageError → Nat
  | .helpAsked | .versionAsked => 0
  | _ => 2

structure Arguments where
  input : Option Text := none
  config : Option Text := none
  outputs : List Text := []
  outputHome : Option Text := none
  view : Option View := none
  sort : Bool := false
  tags : List Text := []
  filter : Criteria := {}
  strict : Bool := false
  jobs : Option Nat := none
  root : Option Text := none
  logLevel : Option LogLevel := none
  dryRun : Bool := false
  listLocales : Bool := false
  deriving DecidableEq

namespace Arguments

/-- Whether the tags of a run are chosen on the command line. -/
def hasFilter (a : Arguments) : Bool :=
  !(a.tags.isEmpty && a.filter == {})

/-- What the command line has to say about the settings. -/
def overrides (a : Arguments) : Overrides where
  logLevel := a.logLevel
  strict := if a.strict then some true else none
  jobs := a.jobs
  root := a.root

/-! ### Words -/

inductive Word where
  | long (name : Text) (attached : Option Text)
  | short (letter : Char) (rest : Text)
  /-- Two dashes: no option follows. -/
  | close
  | value (t : Text)
  deriving DecidableEq

/-- A lone dash is a value. -/
def word : Text → Word
  | ['-', '-'] => .close
  | '-' :: '-' :: t => match Text.cutAt '=' t with
    | some (name, value) => .long name (some value)
    | none => .long t none
  | '-' :: c :: t => .short c t
  | t => .value t

/-- The flags by their long names. -/
def longNames : List (Text × Flag) :=
  [("input".toList, .option .input), ("config".toList, .option .config),
   ("output".toList, .option .output), ("output-home".toList, .option .outputHome),
   ("view".toList, .option .view), ("sort".toList, .switch .sort),
   ("tags".toList, .option .tags), ("any".toList, .option .anyOf), ("all".toList, .option .allOf),
   ("none".toList, .option .noneOf), ("strict".toList, .switch .strict),
   ("jobs".toList, .option .jobs), ("root".toList, .option .root),
   ("log-level".toList, .option .logLevel), ("dry-run".toList, .switch .dryRun),
   ("list-locales".toList, .switch .listLocales), ("help".toList, .help),
   ("version".toList, .version)]

/-- The flags that have a letter. -/
def shortNames : List (Char × Flag) :=
  [('i', .option .input), ('c', .option .config), ('o', .option .output), ('t', .option .tags),
   ('j', .option .jobs), ('h', .help), ('V', .version)]

/-- What stands attached to a letter, an equals sign left out. -/
def attached : Text → Option Text
  | [] => none
  | '=' :: t => some t
  | t => some t

/-- The flag of a word and what is attached to it. Only help and version among the letters take no
    value, and nothing behind them matters. -/
def flag? : Word → Option (Flag × Option Text)
  | .long name value => (longNames.lookup name).map (·, value)
  | .short c rest => (shortNames.lookup c).map fun
    | .option k => (.option k, attached rest)
    | f => (f, none)
  | _ => none

/-! ### Values -/

/-- The value of an option that takes one. -/
def once {α : Type} (old : Option α) (new : Except UsageError α) : Except UsageError (Option α) :=
  if old.isSome then .error .repeated else new.map some

/-- A path is not empty. -/
def pathValue (t : Text) : Except UsageError Text :=
  if t.isEmpty then .error .missingValue else .ok t

def checked {α : Type} (value : Option α) : Except UsageError α :=
  match value with
  | some v => .ok v
  | none => .error .refusedValue

/-- Gives a value to an option. Lists of tags are cut at commas, empty pieces kept. -/
def give (a : Arguments) (key : OptionKey) (t : Text) : Except UsageError Arguments :=
  match key with
  | .input => (once a.input (.ok t)).map ({ a with input := · })
  | .config => (once a.config (pathValue t)).map ({ a with config := · })
  | .output => (pathValue t).map fun p => { a with outputs := a.outputs ++ [p] }
  | .outputHome => (once a.outputHome (pathValue t)).map ({ a with outputHome := · })
  | .view => (once a.view (checked (View.ofText t).toOption)).map ({ a with view := · })
  | .tags => .ok { a with tags := a.tags ++ [t] }
  | .anyOf => .ok { a with filter.anyOf := a.filter.anyOf ++ t.splitOn ',' }
  | .allOf => .ok { a with filter.allOf := a.filter.allOf ++ t.splitOn ',' }
  | .noneOf => .ok { a with filter.noneOf := a.filter.noneOf ++ t.splitOn ',' }
  | .jobs => (once a.jobs (checked (readCount t))).map ({ a with jobs := · })
  | .root => (once a.root (.ok t)).map ({ a with root := · })
  | .logLevel =>
    (once a.logLevel (checked (LogLevel.ofText t).toOption)).map ({ a with logLevel := · })

def isOn (a : Arguments) : Switch → Bool
  | .sort => a.sort
  | .strict => a.strict
  | .dryRun => a.dryRun
  | .listLocales => a.listLocales

def turnOn (a : Arguments) (s : Switch) : Except UsageError Arguments :=
  if a.isOn s then .error .repeated
  else .ok (match s with
    | .sort => { a with sort := true }
    | .strict => { a with strict := true }
    | .dryRun => { a with dryRun := true }
    | .listLocales => { a with listLocales := true })

/-! ### Reading -/

/-- An option whose value has not been looked at. -/
inductive Waiting where
  | nothing
  | forValue (key : OptionKey)
  | withValue (key : OptionKey) (value : Text)
  deriving DecidableEq

/-- Looks at the value that is waiting. -/
def settle (a : Arguments) : Waiting → Except UsageError Arguments
  | .nothing => .ok a
  | .forValue _ => .error .missingValue
  | .withValue key value => a.give key value

/-- One flag, met after all before it are settled. -/
def takeFlag (a : Arguments) : Flag → Option Text → Except UsageError (Arguments × Waiting)
  | .option key, some value => (a.give key value).map (·, .nothing)
  | .option key, none => .ok (a, .forValue key)
  | .switch s, _ => (a.turnOn s).map (·, .nothing)
  | .help, _ => .error .helpAsked
  | .version, _ => .error .versionAsked

def takesValue : Flag → Bool
  | .option _ => true
  | _ => false

/-- The arguments of the words from a state on. -/
def readFrom (a : Arguments) (w : Waiting) : List Text → Except UsageError Arguments
  | [] => a.settle w
  | t :: ts => match word t, w with
    | .close, _ => if ts.isEmpty then a.settle w else .error .unknownWord
    | .value v, .forValue key => readFrom a (.withValue key v) ts
    | .value _, _ => .error .unknownWord
    | flagWord, _ => match flag? flagWord with
      | none => .error .unknownWord
      | some (f, value) =>
        if value.isSome && !takesValue f then .error .switchWithValue
        else match a.settle w with
          | .error e => .error e
          | .ok a => match a.takeFlag f value with
            | .error e => .error e
            | .ok (a, w) => readFrom a w ts

/-- The arguments of a command line. -/
def read (words : List Text) : Except UsageError Arguments := readFrom {} .nothing words

end Arguments
end GherkinIndex
