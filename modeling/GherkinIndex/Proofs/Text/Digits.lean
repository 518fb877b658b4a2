import Mathlib.Data.List.Basic
import Mathlib.Data.List.TakeWhile
import GherkinIndex.Text.Basic

/-! Decimal digits.

    A natural number is written without leading zeros and read back from a run of digits; whatever
    is not a digit ends the run. -/

namespace GherkinIndex.Text

/-! ### Runs -/

section
variable {α : Type} {p : α → Bool} {xs ys : List α} (hxs : ∀ x ∈ xs, p x = true)
  (hys : ∀ y ∈ ys.head?, p y = false)
include hxs hys

/-- A run is taken whole if what follows does not go on with it. -/
theorem takeWhile_run : (xs ++ ys).takeWhile p = xs := by
  have hstop : ys.takeWhile p = [] := by
    cases ys with
    | nil => rfl
    | cons y ys => exact List.takeWhile_cons_of_neg (by simp [hys y rfl])
  rw [List.takeWhile_append_of_pos hxs, hstop, List.append_nil]

theorem dropWhile_run : (xs ++ ys).dropWhile p = ys := by
  rw [List.dropWhile_append_of_pos hxs]
  cases ys with
  | nil => rfl
  | cons y ys => exact List.dropWhile_cons_of_neg (by simp [hys y rfl])

end

theorem bne_of_not_mem {sep : Char} {t : Text} (h : sep ∉ t) : ∀ c ∈ t, (c != sep) = true := by
  intro c hc
  rw [bne_iff_ne]
  rintro rfl
  exact h hc

theorem cutAt_of_not_mem {sep : Char} {t : Text} (h : sep ∉ t) : cutAt sep t = none := by
  rw [cutAt, List.dropWhile_eq_nil_iff.2 (bne_of_not_mem h)]

/-- A text is cut behind a run without the separator. -/
theorem cutAt_append {sep : Char} {t : Text} (h : sep ∉ t) (s : Text) :
    cutAt sep (t ++ sep :: s) = some (t, s) := by
  have hstop : ∀ c ∈ (sep :: s).head?, (c != sep) = false := by simp
  rw [cutAt, dropWhile_run (bne_of_not_mem h) hstop, takeWhile_run (bne_of_not_mem h) hstop]

/-! ### Numbers -/

theorem isDigit_of_mem_ofNat {n : Nat} {c : Char} (hc : c ∈ ofNat n) : c.isDigit = true :=
  Nat.isDigit_of_mem_toDigits (by decide) (by decide) hc

theorem ofNat_ne_nil (n : Nat) : ofNat n ≠ [] := Nat.toDigits_ne_nil

/-- Only zero starts with a zero. -/
theorem head?_ofNat {n : Nat} (hn : n ≠ 0) : (ofNat n).head? ≠ some '0' := by
  induction n using Nat.strongRecOn with
  | ind n ih =>
    by_cases hlt : n < 10
    · have hdigit : ∀ d < 10, d ≠ 0 → d.digitChar ≠ '0' := by decide
      rw [ofNat, Nat.toDigits_of_lt_base hlt]
      simpa using hdigit n hlt hn
    · have hsplit : ofNat n = ofNat (n / 10) ++ [(n % 10).digitChar] :=
        Nat.toDigits_of_base_le (by decide) (Nat.le_of_not_lt hlt)
      rw [hsplit, List.head?_append_of_ne_nil _ (ofNat_ne_nil _)]
      exact ih (n / 10) (by omega) (by omega)

/-- A number reads back. -/
theorem readNat_ofNat (n : Nat) : readNat (ofNat n) = some n := by
  have hdigits : (ofNat n).all Char.isDigit = true :=
    List.all_eq_true.2 fun c hc => isDigit_of_mem_ofNat hc
  have hvalue : Nat.ofDigitChars 10 (ofNat n) 0 = n := Nat.ofDigitChars_ten_toDigits
  rw [Nat.ofDigitChars_eq_foldl] at hvalue
  simp only [readNat, hdigits, Bool.not_true, Bool.or_false, List.isEmpty_iff, ofNat_ne_nil,
    if_false, Option.some.injEq]
  simpa only [Nat.mul_comm] using hvalue

end GherkinIndex.Text
