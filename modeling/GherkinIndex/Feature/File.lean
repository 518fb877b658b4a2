import GherkinIndex.Disk.Resolve
import GherkinIndex.Feature.Parse
import GherkinIndex.Path.Root

/-! From a feature file to its tree.

    The tree is named by the path from the root marker on, and so is a file without one. -/

namespace GherkinIndex

inductive FeatureError where
  | unreadable (path : Text) (cause : Fault)
  | refused (path : Text) (cause : ParseError)
  deriving DecidableEq

namespace FeatureError

def path : FeatureError → Text
  | .unreadable p _ => p
  | .refused p _ => p

/-- The line at which reading stopped, if the file could be read at all. -/
def line : FeatureError → Option Nat
  | .unreadable _ _ => none
  | .refused _ cause => some cause.line

/-- What went wrong, without the file. -/
def cause : FeatureError → Text
  | .unreadable _ cause => cause.message
  | .refused _ cause => cause.message

def message : FeatureError → Text
  | .unreadable p cause => "failed to read feature file ".toList ++ p ++ ": ".toList ++ cause.message
  | .refused p cause => "failed to parse feature file ".toList ++ p ++ ": ".toList ++ cause.message

end FeatureError

/-- The text of a feature file; a byte-order mark at its start is not part of it. -/
def readFeature (d : Disk) (path : Text) : Except Fault Text :=
  (d.readText path).map Text.dropMark

/-- The tree of a file, or why it has none, and the events on the way. -/
structure ParsedFile where
  result : Except FeatureError Node
  log : List Event

def parseFile (f : TagFilter) (root : Text) (d : Disk) (path : Text) : ParsedFile :=
  let shown := Path.relativeTo root path
  match readFeature d path with
  | .error cause => ⟨.error (.unreadable shown cause), []⟩
  | .ok text => match parse f (some shown) text with
    | ⟨.ok n, log⟩ => ⟨.ok n, log⟩
    | ⟨.error cause, log⟩ => ⟨.error (.refused shown cause), log⟩

end GherkinIndex
