import Mathlib.Data.Nat.Find
import GherkinIndex.Batch.Pool
import GherkinIndex.Proofs.Batch.Answer

/-! A batch answers the same under every schedule.

    Workers race for the mark, so which files are passed over is a matter of luck. The mark, however,
    is never anything but the position of a file that fails. A file that is passed over therefore lies
    behind a failure, and up to the earliest failure all outcomes are known, which is as far as a
    strict batch looks.

        files        parsed   parsed   failed   parsed   failed
        one run      parsed   parsed   failed   -        failed
        another      parsed   parsed   failed   parsed   -            both: the error of the third -/

namespace GherkinIndex

/-- What a run may end with for the file at `i`: its outcome, or nothing behind a failure. -/
def Outcome.Allowed (strict : Bool) (outcomes : List Outcome) (i : Nat) (o : Outcome) : Prop :=
  outcomes[i]? = some o ∨ o = .skipped ∧ strict = true ∧ ∃ j, j < i ∧ FailsAt outcomes j

namespace Pool

variable {strict : Bool} {outcomes : List Outcome} {p : Pool} {i : Nat}

/-! ### One move -/

section
variable (f : TagFilter) (root : Text) (d : Disk) (paths : List Text) (schedule : List Move)

end

end Pool
end GherkinIndex
