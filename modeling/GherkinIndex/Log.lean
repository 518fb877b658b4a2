import GherkinIndex.Node

/-! What the library reports about its own work.

    Every function that has something to say returns its events, in order, beside its result. -/

namespace GherkinIndex

inductive LogLevel where
  | trace | debug | info | warn | error
  deriving DecidableEq, Repr

/-- The name of a level. -/
def LogLevel.label : LogLevel → Text
  | .trace => "trace".toList
  | .debug => "debug".toList
  | .info => "info".toList
  | .warn => "warn".toList
  | .error => "error".toList

/-- The number of levels that are at least as chatty. -/
def LogLevel.rank : LogLevel → Nat
  | .trace => 1
  | .debug => 2
  | .info => 3
  | .warn => 4
  | .error => 5

inductive Event where
  /-- A file declares a language without a keyword table. -/
  | englishFallback (path : Option Text) (cause : Text)
  | scenarioAsOutline (text : Text)
  | outlineDropped (text : Text)
  | filteredOut (kind : Kind) (text : Text)
  | docStringLeftOpen (path : Option Text)
  | linkLoopSkipped (base : Text)
  | filesCollected (input : Text) (count : Nat)
  | noFiles (input : Text)
  | fileSkipped (path : Text) (line : Option Nat) (cause : Text)
  | batchComplete (files parsed failed : Nat)
  | reportWritten (path format : Text)
  deriving DecidableEq

namespace Event

/-- The value of one field of an event. -/
inductive Field where
  | text (t : Text)
  | number (n : Nat)
  deriving DecidableEq

def level : Event → LogLevel
  | .englishFallback .. | .noFiles .. | .fileSkipped .. => .warn
  | .batchComplete .. | .reportWritten .. => .info
  | _ => .debug

def message : Event → Text
  | .englishFallback .. => "falling back to English keywords".toList
  | .scenarioAsOutline .. => "scenario with examples treated as an outline".toList
  | .outlineDropped .. => "outline dropped: no examples block survived filtering".toList
  | .filteredOut .. => "construct filtered out".toList
  | .docStringLeftOpen .. => "doc string left open at end of file".toList
  | .linkLoopSkipped .. => "skipping symlink loop".toList
  | .filesCollected .. => "collected feature files".toList
  | .noFiles .. => "no feature files found".toList
  | .fileSkipped .. => "skipping feature file".toList
  | .batchComplete .. => "batch complete".toList
  | .reportWritten .. => "report written".toList

/-- The fields of an event; one without a value is left out. -/
def fields : Event → List (String × Field)
  | .englishFallback path cause => optional "file" (path.map .text) ++ [("error", .text cause)]
  | .scenarioAsOutline t => [("text", .text t)]
  | .outlineDropped t => [("text", .text t)]
  | .filteredOut k t => [("kind", .text k.label), ("text", .text t)]
  | .docStringLeftOpen path => optional "file" (path.map .text)
  | .linkLoopSkipped base => [("path", .text base)]
  | .filesCollected input n => [("input", .text input), ("count", .number n)]
  | .noFiles input => [("input", .text input)]
  | .fileSkipped path line cause =>
    [("file", .text path)] ++ optional "line" (line.map .number) ++ [("error", .text cause)]
  | .batchComplete files parsed failed =>
    [("files", .number files), ("parsed", .number parsed), ("failed", .number failed)]
  | .reportWritten path format => [("path", .text path), ("format", .text format)]
where
  optional (name : String) : Option Field → List (String × Field)
    | none => []
    | some v => [(name, v)]

end Event
end GherkinIndex
