import GherkinIndex.Feature.File
import GherkinIndex.Report.Basic
import GherkinIndex.Settings

/-! Many files at once.

    Files are independent, so their outcomes may be had in any order; what a batch answers depends on
    the positions of the files only. A lenient batch lists failures beside the trees. A strict one is
    given up at its earliest failure, and files behind a known failure need not be looked at. -/

namespace GherkinIndex

/-- What became of one file. -/
inductive Outcome where
  | parsed (node : Node)
  | failed (error : FeatureError)
  | skipped
  deriving DecidableEq

def Failure.ofError (e : FeatureError) : Failure := ⟨e.path, e.line, e.cause⟩

namespace Batch

/-- The outcome of a file that is looked at. -/
def outcome (f : TagFilter) (root : Text) (d : Disk) (path : Text) : Outcome :=
  match (parseFile f root d path).result with
  | .ok n => .parsed n
  | .error e => .failed e

/-- The report of outcomes in input order; the first failure of a strict batch is its error. -/
def collect (strict : Bool) : List Outcome → Except FeatureError Report
  | [] => .ok ⟨[], []⟩
  | .skipped :: os => collect strict os
  | .parsed n :: os => match collect strict os with
    | .ok r => .ok { r with features := n :: r.features }
    | .error e => .error e
  | .failed e :: os =>
    if strict then .error e
    else match collect strict os with
      | .ok r => .ok { r with failures := .ofError e :: r.failures }
      | .error e => .error e

/-- One event per failure and one for the whole. -/
def events (outcomes : List Outcome) (r : Report) : List Event :=
  (outcomes.filterMap fun
    | .failed e => some (Event.fileSkipped e.path e.line e.message)
    | _ => none) ++
  [.batchComplete outcomes.length r.features.length r.failures.length]

/-- The report of some outcomes, with its events; a batch given up has none. -/
def conclude (strict : Bool) (outcomes : List Outcome) :
    Except FeatureError Report × List Event :=
  match collect strict outcomes with
  | .ok r => (.ok r, events outcomes r)
  | .error e => (.error e, [])

/-- The files parsed one after the other. -/
def parseFiles (f : TagFilter) (o : BatchOptions) (d : Disk) (paths : List Text) :
    Except FeatureError Report × List Event :=
  conclude o.strict (paths.map (outcome f o.root d))

end Batch
end GherkinIndex
