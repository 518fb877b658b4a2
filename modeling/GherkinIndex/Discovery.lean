import GherkinIndex.Disk.Walk
import GherkinIndex.Glob.Expand
import GherkinIndex.Log
import GherkinIndex.Path.Root

/-! Finding feature files.

    An input is a glob, a directory or a file. A directory stands for the feature files below it, a
    glob for the files it matches, of any name, and for the directories it matches. The result is in
    path order, each file once. -/

namespace GherkinIndex

inductive DiscoveryError where
  | pattern (pattern : Text) (cause : Glob.PatternError)
  | missing (path : Text)
  | walk (path : Text) (cause : Fault)
  deriving DecidableEq

def DiscoveryError.message : DiscoveryError → Text
  | .pattern p cause => "invalid glob pattern `".toList ++ p ++ "`: ".toList ++ cause.message
  | .missing p => "input path ".toList ++ p ++ " does not exist".toList
  | .walk p cause => "failed to read ".toList ++ p ++ ": ".toList ++ cause.message

/-- The message of what an error was caused by, if it was. -/
def DiscoveryError.cause : DiscoveryError → Option Text
  | .pattern _ cause => some cause.message
  | .missing _ => none
  | .walk _ cause => some cause.message

namespace Discovery

/-- Files found so far, or why the search stopped, and the events on the way. -/
structure Search where
  found : Except DiscoveryError (List Text)
  log : List Event

/-- Two searches one after the other; the second one is not made if the first one stopped. -/
def Search.andThen (s : Search) (t : Search) : Search :=
  match s.found, t.found with
  | .error e, _ => ⟨.error e, s.log⟩
  | .ok fs, .ok gs => ⟨.ok (fs ++ gs), s.log ++ t.log⟩
  | .ok _, .error e => ⟨.error e, s.log ++ t.log⟩

/-- The feature files among the sightings of a walk, up to a broken link. -/
def ofSightings (base : Text) : List Disk.Sighting → Search
  | [] => ⟨.ok [], []⟩
  | .file p :: rest =>
    Search.andThen ⟨.ok (if Path.isFeature p then [p] else []), []⟩ (ofSightings base rest)
  | .loop :: rest => Search.andThen ⟨.ok [], [.linkLoopSkipped base]⟩ (ofSightings base rest)
  | .broken p f :: _ => ⟨.error (.walk p f), []⟩

/-- The feature files below a directory. -/
def inDirectory (d : Disk) (path : Text) : Search := ofSightings path (d.walk path)

/-- The files that matched paths stand for. -/
def ofMatches (d : Disk) : List Text → Search
  | [] => ⟨.ok [], []⟩
  | p :: ps =>
    let here : Search :=
      if d.isDir p then inDirectory d p
      else if d.isFile p then ⟨.ok [p], []⟩
      else ⟨.ok [], []⟩
    here.andThen (ofMatches d ps)

def search (d : Disk) (input : Text) : Search :=
  if Path.hasGlob input then
    match Glob.ofText input with
    | .error e => ⟨.error (.pattern input e), []⟩
    | .ok g => ofMatches d (g.expand d)
  else if d.isDir input then inDirectory d input
  else if d.isFile input then ⟨.ok [input], []⟩
  else ⟨.error (.missing input), []⟩

/-- The files that an input stands for, in path order and each once. -/
def featureFiles (d : Disk) (input : Text) : Search :=
  match search d input with
  | ⟨.error e, log⟩ => ⟨.error e, log⟩
  | ⟨.ok fs, log⟩ =>
    let files := Path.ordered fs
    ⟨.ok files, log ++ [.filesCollected input files.length]⟩

end Discovery
end GherkinIndex
