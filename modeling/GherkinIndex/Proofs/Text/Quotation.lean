import Mathlib.Algebra.Ring.Parity
import Mathlib.Data.List.DropRight
import Mathlib.Data.List.Induction
import GherkinIndex.Text.Basic

/-! Texts between apostrophes.

    Put between two apostrophes, a text ends the quotation itself at each apostrophe that no
    backslash escapes. A backslash that is escaped escapes nothing, so what counts is how many
    backslashes stand right before the apostrophe. Escaping adds one to them.

        text       it's      it\'s     it\\'s
        escaped    it\'s     it\\'s    it\\\'s
                      1         2          3      odd: the apostrophe is guarded -/

namespace GherkinIndex.Text

/-- The number of backslashes at the end of a text. -/
def endingBackslashes (t : Text) : Nat := (t.rtakeWhile (· == '\\')).length

/-- Each apostrophe is escaped by a backslash that is not escaped itself. -/
def Guarded (t : Text) : Prop :=
  ∀ before after, t = before ++ '\'' :: after → Odd (endingBackslashes before)

/-- No apostrophe is escaped. -/
def Unescaped (t : Text) : Prop :=
  ∀ before after, t = before ++ '\'' :: after → Even (endingBackslashes before)

/-- Whether a text ends the quotation in which it stands, the backslash being the escape character;
    `escaped` if one stands right before the text that is not escaped itself. -/
def endsQuotation : Bool → Text → Bool
  | _, [] => false
  | escaped, c :: t =>
    (!escaped && c == '\'') || endsQuotation (!escaped && c == '\\') t

/-! ### Backslashes -/

theorem endingBackslashes_concat (t : Text) (c : Char) :
    endingBackslashes (t ++ [c]) = if c = '\\' then endingBackslashes t + 1 else 0 := by
  rw [endingBackslashes, List.rtakeWhile_concat]
  by_cases hc : c = '\\' <;> simp [hc, endingBackslashes]

/-- A backslash escapes what follows if it is not escaped, and nothing else does. -/
theorem odd_endingBackslashes_concat (t : Text) (c : Char) :
    Odd (endingBackslashes (t ++ [c])) ↔ ¬ Odd (endingBackslashes t) ∧ c = '\\' := by
  rw [endingBackslashes_concat]
  by_cases hc : c = '\\'
  · simp [hc, Nat.odd_add_one]
  · simp [hc]

/-! ### Escaping -/

theorem escapeApostrophes_append (s t : Text) :
    escapeApostrophes (s ++ t) = escapeApostrophes s ++ escapeApostrophes t :=
  List.flatMap_append

theorem escapeApostrophes_cons (c : Char) (t : Text) :
    escapeApostrophes (c :: t) =
      (if c = '\'' then ['\\', '\''] else [c]) ++ escapeApostrophes t := rfl

/-- An escaped text starts with a backslash where the text has an apostrophe. -/
theorem head?_escapeApostrophes_ne (t : Text) :
    (escapeApostrophes t).head? ≠ some '\'' := by
  cases t with
  | nil => simp [escapeApostrophes]
  | cons c t => by_cases hc : c = '\'' <;> simp [escapeApostrophes, hc]

/-- Escaping keeps different texts apart. -/
theorem escapeApostrophes_injective : Function.Injective escapeApostrophes := by
  intro s
  induction s with
  | nil =>
    intro t h
    cases t with
    | nil => rfl
    | cons d t => by_cases hd : d = '\'' <;> simp [escapeApostrophes, hd] at h
  | cons c s ih =>
    intro t h
    cases t with
    | nil => by_cases hc : c = '\'' <;> simp [escapeApostrophes, hc] at h
    | cons d t =>
      rw [escapeApostrophes_cons, escapeApostrophes_cons] at h
      by_cases hc : c = '\'' <;> by_cases hd : d = '\''
      · rw [if_pos hc, if_pos hd, List.append_cancel_left_eq] at h
        rw [hc, hd, ih h]
      · -- the rest of `t` would have to start with an apostrophe that is not escaped
        simp only [if_pos hc, if_neg hd, List.cons_append, List.nil_append, List.cons.injEq] at h
        exact absurd (congrArg List.head? h.2.symm) (head?_escapeApostrophes_ne t)
      · rw [if_neg hc, if_pos hd, List.cons_append, List.cons_append, List.cons.injEq] at h
        exact absurd (congrArg List.head? h.2) (by simp [head?_escapeApostrophes_ne])
      · rw [if_neg hc, if_neg hd, List.singleton_append, List.singleton_append,
          List.cons.injEq] at h
        rw [h.1, ih h.2]

/-- Escaping adds no backslash behind the last apostrophe. -/
theorem endingBackslashes_escapeApostrophes (t : Text) :
    endingBackslashes (escapeApostrophes t) = endingBackslashes t := by
  induction t using List.reverseRecOn with
  | nil => rfl
  | append_singleton t c ih =>
    rw [escapeApostrophes_append, endingBackslashes_concat]
    by_cases hc : c = '\''
    · have hlast : escapeApostrophes [c] = ['\\'] ++ ['\''] := by rw [hc]; rfl
      rw [hlast, ← List.append_assoc, endingBackslashes_concat, hc]
      rfl
    · have hlast : escapeApostrophes [c] = [c] := by simp [escapeApostrophes, hc]
      rw [hlast, endingBackslashes_concat, ih]

/-- Every apostrophe of an escaped text is one of the text itself, with one more backslash. -/
theorem apostrophe_of_escapeApostrophes {t before after : Text}
    (h : escapeApostrophes t = before ++ '\'' :: after) :
    ∃ s u, t = s ++ '\'' :: u ∧ before = escapeApostrophes s ++ ['\\'] := by
  induction t generalizing before with
  | nil => simp [escapeApostrophes] at h
  | cons c t ih =>
    rw [escapeApostrophes_cons] at h
    by_cases hc : c = '\''
    · -- the backslash of this apostrophe, the apostrophe itself, or what follows
      rw [if_pos hc] at h
      rcases before with - | ⟨a, - | ⟨b, before⟩⟩
      · simp at h
      · obtain ⟨rfl, -⟩ := List.cons.inj h
        exact ⟨[], t, by rw [hc]; rfl, rfl⟩
      · simp only [List.cons_append, List.nil_append, List.cons.injEq] at h
        obtain ⟨rfl, rfl, hrest⟩ := h
        obtain ⟨s, u, rfl, rfl⟩ := ih hrest
        exact ⟨'\'' :: s, u, by rw [hc]; rfl, rfl⟩
    · rw [if_neg hc] at h
      cases before with
      | nil => exact absurd (List.cons.inj h).1 hc
      | cons a before =>
        obtain ⟨rfl, hrest⟩ := List.cons.inj h
        obtain ⟨s, u, rfl, rfl⟩ := ih hrest
        refine ⟨c :: s, u, rfl, ?_⟩
        rw [escapeApostrophes_cons, if_neg hc]
        rfl

theorem endingBackslashes_escaped (t : Text) :
    endingBackslashes (escapeApostrophes t ++ ['\\']) = endingBackslashes t + 1 := by
  rw [endingBackslashes_concat, if_pos rfl, endingBackslashes_escapeApostrophes]

/-- Escaping guards the apostrophes of a text exactly if none of them is escaped already. -/
theorem guarded_escapeApostrophes_iff {t : Text} : (escapeApostrophes t).Guarded ↔ t.Unescaped := by
  constructor
  · rintro h before after rfl
    have hsplit : escapeApostrophes (before ++ '\'' :: after) =
        (escapeApostrophes before ++ ['\\']) ++ '\'' :: escapeApostrophes after := by
      simp [escapeApostrophes_append, escapeApostrophes_cons]
    have hodd := h _ _ hsplit
    rw [endingBackslashes_escaped, Nat.odd_add_one, Nat.not_odd_iff_even] at hodd
    exact hodd
  · intro h before after hsplit
    obtain ⟨s, u, rfl, rfl⟩ := apostrophe_of_escapeApostrophes hsplit
    rw [endingBackslashes_escaped, Nat.odd_add_one, Nat.not_odd_iff_even]
    exact h s u rfl

/-! ### Quotations -/

/-- Behind `seen`, a text ends the quotation at an apostrophe that has an even number of backslashes
    before it. -/
theorem endsQuotation_iff (seen t : Text) :
    endsQuotation (decide (Odd (endingBackslashes seen))) t = true ↔
      ∃ before after, t = before ++ '\'' :: after ∧
        ¬ Odd (endingBackslashes (seen ++ before)) := by
  induction t generalizing seen with
  | nil => simp [endsQuotation]
  | cons c t ih =>
    have hnext : decide (Odd (endingBackslashes (seen ++ [c]))) =
        (!decide (Odd (endingBackslashes seen)) && c == '\\') := by
      rw [Bool.eq_iff_iff]
      simp only [decide_eq_true_eq, odd_endingBackslashes_concat, Bool.and_eq_true, beq_iff_eq,
        Bool.not_eq_true', decide_eq_false_iff_not]
    rw [endsQuotation, ← hnext, Bool.or_eq_true, ih]
    constructor
    · rintro (hhere | ⟨before, after, rfl, heven⟩)
      · simp only [Bool.and_eq_true, Bool.not_eq_true', decide_eq_false_iff_not, beq_iff_eq] at hhere
        exact ⟨[], t, by rw [hhere.2]; rfl, by simpa using hhere.1⟩
      · exact ⟨c :: before, after, rfl, by simpa using heven⟩
    · rintro ⟨before, after, hsplit, heven⟩
      cases before with
      | nil =>
        obtain ⟨rfl, rfl⟩ := List.cons.inj hsplit
        exact .inl (by simpa using heven)
      | cons d before =>
        obtain ⟨rfl, rfl⟩ := List.cons.inj hsplit
        exact .inr ⟨before, after, rfl, by simpa using heven⟩

/-- A text is quoted whole exactly if its apostrophes are guarded. -/
theorem endsQuotation_eq_false_iff {t : Text} : endsQuotation false t = false ↔ t.Guarded := by
  have hstart : decide (Odd (endingBackslashes [])) = false := rfl
  rw [← Bool.not_eq_true, ← hstart, endsQuotation_iff, not_exists]
  refine forall_congr' fun before => ?_
  rw [not_exists]
  refine forall_congr' fun after => ?_
  rw [not_and, not_not, List.nil_append]

end GherkinIndex.Text
