import GherkinIndex.Line

/-! The lines of a file that count.

    A doc string hides what stands in it, whatever it looks like. Its opening fence may carry a media
    type; only a bare fence of the same kind closes it.

        Scenario: s          mark on line 1
          ```json            opens
          Scenario: hidden
          ```text            not bare: still hidden
          ```                closes
        @slow                mark on line 6 -/

namespace GherkinIndex

/-- A mark and the number of its line, counted from one. -/
structure Placed where
  line : Nat
  mark : Mark
  deriving DecidableEq

/-- The doc string that is open after a line, given the one open before it. -/
def Fence.step (opened : Option Fence) (line : Text) : Option Fence :=
  match opened, Line.delimiter? line with
  | some f, some d => if d.closes f then none else some f
  | some f, none => some f
  | none, some d => some d.fence
  | none, none => none

/-- The marks outside doc strings; `n` is the number of the first line. -/
def visible (l : Locale) : Option Fence → Nat → List Text → List Placed
  | _, _, [] => []
  | opened, n, x :: xs =>
    let rest := visible l (Fence.step opened x) (n + 1) xs
    match opened, Line.classify l x with
    | none, some (.mark m) => ⟨n, m⟩ :: rest
    | _, _ => rest

end GherkinIndex
