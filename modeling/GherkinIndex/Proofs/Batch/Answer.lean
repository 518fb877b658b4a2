import GherkinIndex.Batch.Basic

/-! What a batch answers.

    A lenient batch sorts its files into trees and failures and loses none. A strict one answers with
    all trees, or with the error of its earliest failure, whatever became of the files behind.

        files      t      e      t      e'
        lenient    trees [t, t], failures [e, e']
        strict     error e -/

namespace GherkinIndex

/-- The outcome at position `i` is a failure. -/
def FailsAt (outcomes : List Outcome) (i : Nat) : Prop := ∃ e, outcomes[i]? = some (.failed e)

namespace Batch

section
variable (f : TagFilter) (root : Text) (d : Disk)

theorem outcome_of_ok {path : Text} {n : Node} (h : (parseFile f root d path).result = .ok n) :
    outcome f root d path = .parsed n := by
  rw [outcome, h]

theorem outcome_of_error {path : Text} {e : FeatureError}
    (h : (parseFile f root d path).result = .error e) : outcome f root d path = .failed e := by
  rw [outcome, h]

end

theorem conclude_fst (strict : Bool) (os : List Outcome) :
    (conclude strict os).1 = collect strict os := by
  unfold conclude
  cases collect strict os <;> rfl

end Batch
end GherkinIndex
