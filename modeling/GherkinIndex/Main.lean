import GherkinIndex.Command
import GherkinIndex.Options.Document

/-! The program.

    A run sees a picture of the disk: what its options name, everything below it and whatever links
    lead to from there. It ends with another picture, and the program makes the difference real. -/

namespace GherkinIndex.Program

/-! ### The disk before -/

/-- The entry at an absolute place. -/
def entryAt (p : Place) : IO.FS.DirEntry := ⟨"/", String.ofList (Text.join ['/'] p)⟩

/-- Where a link leads in the end; nowhere if that is not there. -/
def linkTarget (e : IO.FS.DirEntry) : IO Text := do
  try return (← IO.FS.realPath e.path).toString.toList
  catch _ => return []

/-- The items at and below a place; links are noted, not followed. -/
partial def itemsAt (p : Place) (e : IO.FS.DirEntry) : IO (List (Place × Item)) := do
  match (← e.path.symlinkMetadata).type with
  | .symlink => return [(p, .link (← linkTarget e))]
  | .dir =>
    let below ← (← e.path.readDir).toList.mapM fun b => itemsAt (p ++ [b.fileName.toList]) b
    return (p, .dir) :: below.flatten
  | _ => return [(p, .file (← IO.FS.readBinFile e.path))]

/-- The item at a place itself; nothing if it cannot be seen. -/
def itemAt (p : Place) : IO (List (Place × Item)) := do
  try
    match (← (entryAt p).path.metadata).type with
    | .dir => return [(p, .dir)]
    | _ => return [(p, .file (← IO.FS.readBinFile (entryAt p).path))]
  catch _ => return []

/-- The place a path is written for. -/
def placeOf (cwd : Place) (p : Text) : Place :=
  (Disk.steps p).foldl (fun at_ s => match s with
    | .stay => at_
    | .up => at_.dropLast
    | .name n => at_ ++ [n]) (Disk.start cwd p)

/-- Whether a picture lacks a place. -/
def isUnknown (known : List (Place × Item)) (p : Place) : Bool :=
  !p.isEmpty && !known.any (·.1 == p)

/-- Adds to a picture what some paths name, with the directories above it. -/
partial def survey (d : Disk) : List Text → IO Disk
  | [] => return d
  | path :: paths => do
    let p := placeOf d.cwd path
    let above ← (List.range p.length).mapM fun n => itemAt (p.take n)
    let here ←
      if isUnknown d.items p then
        try itemsAt p (entryAt p) catch _ => pure []
      else pure []
    let new := (above.flatten ++ here).filter fun (q, _) => isUnknown d.items q
    let targets := new.filterMap fun
      | (_, .link t) => if t.isEmpty then none else some t
      | _ => none
    survey { d with items := d.items ++ new } (targets ++ paths)

/-- The path up to its first glob. -/
def literalPart (input : Text) : Text :=
  Text.join ['/'] (match (input.splitOn '/').takeWhile (!Path.hasGlob ·) with
    | [[]] => [[], []]
    | pieces => pieces)

/-- What the options name. -/
def namedPaths (o : Options) : List Text :=
  literalPart o.input :: o.targets.map (·.path)

/-! ### The disk after -/

def unchanged (d : Disk) (p : Place) (i : Item) : Bool :=
  match d.item? p, i with
  | some (.file old), .file new => old == new
  | some _, _ => true
  | none, _ => false

def realise (d : Disk) (ending : Ending) : IO Unit := do
  for (p, i) in ending.disk.items do
    unless unchanged d p i do
      match i with
      | .dir => IO.FS.createDirAll (entryAt p).path
      | .file bytes => IO.FS.writeBinFile (entryAt p).path bytes
      | .link _ => pure ()

/-! ### Talking -/

/-- An error with its causes. -/
def errorText : List Text → Text
  | [] => []
  | m :: causes =>
    "error: ".toList ++ m ++ ['\n'] ++
      (if causes.isEmpty then [] else "\nCaused by:\n".toList) ++
      causes.flatMap fun c => "    ".toList ++ c ++ ['\n']

def fieldText : String × Event.Field → Text
  | (name, .text t) => ' ' :: name.toList ++ '=' :: t
  | (name, .number n) => ' ' :: name.toList ++ '=' :: Text.ofNat n

/-- The events that a level lets through, one per line. -/
def logText (level : LogLevel) (log : List Event) : Text :=
  (log.filter fun e => level.rank ≤ e.level.rank).flatMap fun e =>
    e.level.label.map Char.toUpper ++ ' ' :: e.message ++ e.fields.flatMap fieldText ++ ['\n']

def usage : String :=
  "Tag-filtered index of Gherkin feature files.\n\n" ++
  "  -i, --input PATH       feature directory, glob pattern or single file\n" ++
  "  -c, --config FILE      YAML option file\n" ++
  "  -o, --output FILE      report file (.txt, .json or .xml), may be repeated\n" ++
  "      --output-home DIR  directory of relative report paths\n" ++
  "      --view VIEW        feature or tag\n" ++
  "      --sort             list by name\n" ++
  "  -t, --tags EXPR        tag expression, may be repeated\n" ++
  "      --any TAG,..       at least one of these tags\n" ++
  "      --all TAG,..       every one of these tags\n" ++
  "      --none TAG,..      none of these tags\n" ++
  "      --strict           fail on the first file that cannot be parsed\n" ++
  "  -j, --jobs N           worker threads, 0 for the available ones\n" ++
  "      --root DIR         directory that report paths start from\n" ++
  "      --log-level LEVEL  trace, debug, info, warn or error\n" ++
  "      --dry-run          show the resolved options\n" ++
  "      --list-locales     list the supported languages\n" ++
  "  -h, --help             show this help\n" ++
  "  -V, --version          show the version\n"

/-- The line on an argument error. -/
def usageLine : UsageError → String
  | .unknownWord => "error: unexpected argument"
  | .missingValue => "error: an option lacks its value"
  | .refusedValue => "error: invalid value for an option"
  | .repeated => "error: an option is given twice"
  | .switchWithValue => "error: a switch takes no value"
  | .helpAsked => usage
  | .versionAsked => "0.1.0"

/-! ### Running -/

def environment : IO Environment := do
  let keys := [Settings.logLevelKey, Settings.modeKey, Settings.jobsKey, Settings.rootKey]
  let pairs ← keys.mapM fun k => return (← IO.getEnv (String.ofList k)).map fun v => (k, v.toList)
  return pairs.filterMap id

def runWith (a : Arguments) : IO UInt32 := do
  let env ← environment
  let cwd := placeOf [] (← IO.currentDir).toString.toList
  let d ← survey { cwd } a.config.toList
  let options := Options.load OptionFile.ofText a env d
  let d ← match options with
    | .ok o => survey d (if o.dryRun then [] else namedPaths o)
    | .error _ => pure d
  let ending := Command.run OptionFile.ofText a env d
  let err ← IO.getStderr
  if let .ok o := options then
    err.putStr (String.ofList (logText o.settings.logLevel ending.log))
  realise d ending
  (← IO.getStdout).putStr (String.ofList ending.output)
  err.putStr (String.ofList (errorText ending.errors))
  return ending.code.toUInt32

end GherkinIndex.Program

open GherkinIndex in
def main (words : List String) : IO UInt32 := do
  match Arguments.read (words.map String.toList) with
  | .ok a => Program.runWith a
  | .error e =>
    (← if e.code = 0 then IO.getStdout else IO.getStderr).putStrLn (Program.usageLine e)
    return e.code.toUInt32
