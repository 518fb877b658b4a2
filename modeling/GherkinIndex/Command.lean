import GherkinIndex.Batch.Basic
import GherkinIndex.Discovery
import GherkinIndex.Disk.Write
import GherkinIndex.Options.Resolve
import GherkinIndex.Report.Render

/-! The command.

    A run finds the feature files of its input, parses them and writes the report to its targets, or
    to the standard output if it has none. What goes wrong before the first target leaves the disk as
    it was.

        exit code 0   reports written, or something shown
                  1   the run failed
                  2   the options could not be resolved                     -/

namespace GherkinIndex

inductive RunError where
  | discovery (input : Text) (cause : DiscoveryError)
  | aborted (cause : FeatureError)
  | noDirectory (path : Text) (cause : Fault)
  | noReport (path : Text) (cause : Fault)
  deriving DecidableEq

/-- The messages of an error, outermost first. -/
def RunError.chain : RunError → List Text
  | .discovery input cause =>
    ("failed to collect feature files from ".toList ++ input) :: cause.message :: cause.cause.toList
  | .aborted cause => ["run aborted".toList, cause.message, cause.cause]
  | .noDirectory p cause => ["failed to create directory ".toList ++ p, cause.message]
  | .noReport p cause => ["failed to create report ".toList ++ p, cause.message]

/-- What a command leaves behind. -/
structure Ending where
  code : Nat := 0
  output : Text := []
  disk : Disk
  /-- The messages of the error, outermost first. -/
  errors : List Text := []
  log : List Event := []

namespace Command

/-! ### Writing -/

/-- Makes the directory of a report. -/
def makeHome (d : Disk) (path : Text) : Except RunError Disk :=
  match Path.parent path with
  | none => .ok d
  | some dir =>
    if dir.isEmpty then .ok d else (d.makeDirs dir).mapError (.noDirectory dir)

/-- Writes a report to its targets in order, up to the first one that cannot be written. -/
def writeTargets (r : Report) (view : View) : Disk → List Target → Ending
  | d, [] => { disk := d }
  | d, t :: ts => match makeHome d t.path with
    | .error e => { code := 1, disk := d, errors := e.chain }
    | .ok d => match d.writeFile t.path (r.render t.format view) with
      | .error f => { code := 1, disk := d, errors := (RunError.noReport t.path f).chain }
      | .ok d =>
        let rest := writeTargets r view d ts
        { rest with log := .reportWritten t.path t.format.label :: rest.log }

/-- Writes a report to its targets, or as text to the standard output if there are none. -/
def deliver (o : Options) (r : Report) (d : Disk) : Ending :=
  if o.targets.isEmpty then { output := r.render .text o.view, disk := d }
  else writeTargets r o.view d o.targets

/-! ### Running -/

/-- The report of the input, and the events on the way. -/
def report (o : Options) (d : Disk) : Except RunError Report × List Event :=
  match Discovery.featureFiles d o.input with
  | ⟨.error e, log⟩ => (.error (.discovery o.input e), log)
  | ⟨.ok files, log⟩ =>
    let noted := if files.isEmpty then log ++ [.noFiles o.input] else log
    match Batch.parseFiles o.filter o.batch d files with
    | (.error e, events) => (.error (.aborted e), noted ++ events)
    | (.ok r, events) =>
      (.ok { r with features := if o.sort then sortedByName r.features else r.features },
        noted ++ events)

def execute (o : Options) (d : Disk) : Ending :=
  match report o d with
  | (.error e, log) => { code := 1, disk := d, errors := e.chain, log }
  | (.ok r, log) =>
    let ending := deliver o r d
    { ending with log := log ++ ending.log }

/-- The codes and names of all languages with keywords. -/
def localeList : Text :=
  Locale.all.flatMap fun l => l.code ++ '\t' :: l.name ++ ['\n']

/-- A run; `read` reads its option file. -/
def run (read : OptionFile.Reader) (a : Arguments) (env : Environment) (d : Disk) : Ending :=
  if a.listLocales then { output := localeList, disk := d }
  else match Options.load read a env d with
    | .error e => { code := 2, disk := d, errors := e.chain }
    | .ok o => if o.dryRun then { output := o.dump, disk := d } else execute o d

end Command
end GherkinIndex
