import Mathlib.Data.Char
import Mathlib.Data.List.Lex
import GherkinIndex.Text.Basic

/-! The order of texts.

    Texts come in code-point order, which is the lexicographic order that lists of characters have
    anyway. -/

namespace GherkinIndex.Text

theorem precedes_iff_lt {s t : Text} : precedes s t = true ↔ s < t := by
  induction s generalizing t with
  | nil => cases t <;> simp [precedes]
  | cons a s ih =>
    cases t with
    | nil => simp [precedes]
    | cons b t =>
      have hchar : a.toNat < b.toNat ↔ a < b := Iff.rfl
      rw [List.cons_lt_cons_iff, ← hchar, ← ih]
      simp [precedes, Nat.blt_eq]

theorem notAfter_iff_le {s t : Text} : notAfter s t = true ↔ s ≤ t := by
  rw [notAfter, Bool.not_eq_true', ← Bool.not_eq_true, precedes_iff_lt, not_lt]

theorem precedes_trans {s t u : Text} (hst : precedes s t = true) (htu : precedes t u = true) :
    precedes s u = true := by
  rw [precedes_iff_lt] at *
  exact lt_trans hst htu

theorem precedes_or_eq_or_precedes (s t : Text) :
    precedes s t = true ∨ s = t ∨ precedes t s = true := by
  rw [precedes_iff_lt, precedes_iff_lt]
  exact lt_trichotomy s t

end GherkinIndex.Text
