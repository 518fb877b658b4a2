import GherkinIndex.Batch.Basic

/-! Workers on a batch.

    The workers share one number, the mark: the position of the earliest failure known so far. A
    worker takes a file, looks at the mark and passes over the file if it lies behind; else it parses
    the file, and after a failure lowers the mark to the position of the file.

        waiting ──take──▶ taken ──look──▶ running ──finish──▶ done (parsed)
                            │                └──finish──▶ failing ──publish──▶ done (failed)
                            └──look──▶ done (skipped)      strict, mark before the file

    Between two moves on one file there may be any number of moves on others. A schedule is the order
    in which all of them happen. -/

namespace GherkinIndex

/-- A move of some worker on the file at a position. -/
inductive Move where
  | take (i : Nat)
  | look (i : Nat)
  | finish (i : Nat)
  | publish (i : Nat)
  deriving DecidableEq

/-- Where the work on one file stands. -/
inductive Work where
  | waiting
  | taken
  | running
  /-- The failure is not known to others yet. -/
  | failing (error : FeatureError)
  | done (outcome : Outcome)
  deriving DecidableEq

structure Pool where
  work : List Work
  /-- The earliest failure known so far. -/
  mark : Option Nat := none
  deriving DecidableEq

namespace Pool

/-- All files wait. -/
def fresh (files : Nat) : Pool := { work := List.replicate files .waiting }

/-- The mark after a failure at a position. -/
def lower (mark : Option Nat) (i : Nat) : Nat :=
  match mark with
  | none => i
  | some m => min m i

/-- Whether a file lies behind a failure that is known. -/
def isBehind (p : Pool) (i : Nat) : Bool :=
  match p.mark with
  | none => false
  | some m => m < i

def setWork (p : Pool) (i : Nat) (w : Work) : Pool := { p with work := p.work.set i w }

/-- What becomes of a file once its outcome is there. -/
def workAfter : Outcome → Work
  | .failed e => .failing e
  | o => .done o

/-- One move; a move that makes no sense changes nothing. `outcomes` says what parsing a file gives. -/
def step (strict : Bool) (outcomes : List Outcome) (p : Pool) : Move → Pool
  | .take i => match p.work[i]? with
    | some .waiting => p.setWork i .taken
    | _ => p
  | .look i => match p.work[i]? with
    | some .taken => p.setWork i (if strict && p.isBehind i then .done .skipped else .running)
    | _ => p
  | .finish i => match p.work[i]?, outcomes[i]? with
    | some .running, some o => p.setWork i (workAfter o)
    | _, _ => p
  | .publish i => match p.work[i]? with
    | some (.failing e) => { p.setWork i (.done (.failed e)) with mark := some (lower p.mark i) }
    | _ => p

def run (strict : Bool) (outcomes : List Outcome) (p : Pool) (schedule : List Move) : Pool :=
  schedule.foldl (step strict outcomes) p

end Pool
end GherkinIndex
