import GherkinIndex.Options.Arguments
import GherkinIndex.Options.File
import GherkinIndex.Tag.Expression

/-! Options of a run.

    A setting comes from the first source that provides it:

        command line  ▸  option file  ▸  environment  ▸  default

    A filter is not put together from several sources: any tag on the command line replaces the whole
    filter of the option file, whatever is wrong with that one. -/

namespace GherkinIndex

/-- A file that a report is written to. -/
structure Target where
  path : Text
  format : Format
  deriving DecidableEq

structure Options where
  input : Text
  filter : TagFilter
  targets : List Target
  view : View
  sort : Bool
  settings : Settings
  dryRun : Bool
  deriving DecidableEq

inductive OptionsError where
  | environment (cause : InvalidValue)
  | file (cause : OptionFile.LoadError)
  /-- An expression on the command line. -/
  | expression (cause : ExpressionError)
  /-- An expression in the option file. -/
  | fileExpression (cause : ExpressionError)
  | unknownFormat (path : Text)
  deriving DecidableEq

/-- The messages of an error, outermost first. -/
def OptionsError.chain : OptionsError → List Text
  | .environment cause => ["invalid CUKEDEX_* environment variable".toList, cause.message]
  | .file cause => cause.chain
  | .expression cause => ["invalid --tags expression".toList, cause.message]
  | .fileExpression cause => ["invalid \x60tags\x60 entry in option file".toList, cause.message]
  | .unknownFormat p =>
    ["cannot infer report format for ".toList ++ p ++
      "; use a .txt, .json or .xml extension".toList]

namespace Options

/-! ### Resolving -/

/-- The filter of the command line. -/
def argumentsFilter (a : Arguments) : Except OptionsError TagFilter :=
  match TagFilter.ofExpressions a.tags with
  | .ok f => .ok (f.add a.filter)
  | .error e => .error (.expression e)

/-- The filter of an option file. -/
def fileFilter (f : OptionFile) : Except OptionsError TagFilter :=
  match TagFilter.ofExpressions f.tags with
  | .ok g => .ok (g.merge (TagFilter.unfiltered.add f.filter))
  | .error e => .error (.fileExpression e)

def filterFrom (a : Arguments) (f : OptionFile) : Except OptionsError TagFilter :=
  if a.hasFilter then argumentsFilter a else fileFilter f

/-- The report files at their place below `home`, each with the format of its extension. -/
def targetsAt (home : Option Text) : List Text → Except OptionsError (List Target)
  | [] => .ok []
  | p :: ps =>
    let path := match home with
      | none => p
      | some h => Path.join h p
    match Format.ofPath path, targetsAt home ps with
    | none, _ => .error (.unknownFormat path)
    | some _, .error e => .error e
    | some format, .ok ts => .ok (⟨path, format⟩ :: ts)

def targetsFrom (a : Arguments) (f : OptionFile) : Except OptionsError (List Target) :=
  targetsAt (a.outputHome.or f.outputHome) (if a.outputs.isEmpty then f.outputs else a.outputs)

/-- The options from a command line, an option file and the settings of the environment. -/
def resolve (a : Arguments) (f : OptionFile) (env : Settings) : Except OptionsError Options := do
  let filter ← filterFrom a f
  let targets ← targetsFrom a f
  return {
    input := (a.input.or f.input).getD Path.defaultRoot
    filter
    targets
    view := (a.view.or f.view).getD .feature
    sort := a.sort || f.sort.getD false
    settings := (env.override f.settings).override a.overrides
    dryRun := a.dryRun }

/-- The options of a command line on a disk, in an environment; `read` reads the option file. -/
def load (read : OptionFile.Reader) (a : Arguments) (env : Environment) (d : Disk) :
    Except OptionsError Options := do
  let settings ← (Settings.ofEnvironment env).mapError .environment
  let file ← match a.config with
    | none => .ok {}
    | some path => (OptionFile.load read d path).mapError .file
  resolve a file settings

/-! ### What follows from them -/

/-- The marker that the input implies. -/
def derivedRoot (o : Options) : Text := Path.rootMarker o.input

def batch (o : Options) : BatchOptions := o.settings.batch (some o.derivedRoot)

/-! ### Showing -/

def yesNo (b : Bool) : Text := if b then "true".toList else "false".toList

/-- The report files with their formats. -/
def targetsText (ts : List Target) : Text :=
  if ts.isEmpty then "stdout (text)".toList
  else Text.join ", ".toList (ts.map fun t => t.path ++ " (".toList ++ t.format.label ++ [')'])

/-- The resolved options by name. -/
def entries (o : Options) : List (Text × Text) :=
  [("input".toList, o.input),
   ("root".toList, o.batch.root),
   ("view".toList, o.view.label),
   ("sort".toList, yesNo o.sort),
   ("strict".toList, yesNo o.settings.strict),
   ("jobs".toList, Text.ofNat o.settings.jobs),
   ("log_level".toList, o.settings.logLevel.label),
   ("filter.any".toList, o.filter.anyOf.spaced),
   ("filter.all".toList, o.filter.allOf.spaced),
   ("filter.none".toList, o.filter.noneOf.spaced),
   ("output".toList, targetsText o.targets)]

/-- One line per option, the names in a column of eleven characters. -/
def dump (o : Options) : Text :=
  o.entries.flatMap fun (name, value) =>
    name ++ List.replicate (11 - name.length) ' ' ++ " => ".toList ++ value ++ ['\n']

end Options
end GherkinIndex
