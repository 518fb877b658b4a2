import Mathlib.Data.List.DropRight
import GherkinIndex.Text.Basic

/-! Blanks at the ends of a text.

    A text is some blanks, its trimmed middle and some blanks again. What the readers of a line take
    from it, words and known beginnings, lies in the middle, so each of them could as well be given
    the middle alone.

        "\t @a  @b "     blanks | @a  @b | blanks     words @a, @b -/

namespace GherkinIndex.Text

/-! ### Ends -/

/-- The blanks that trimming takes from the end. -/
theorem exists_append_trimEnd (t : Text) :
    ∃ w, (∀ c ∈ w, isBlank c = true) ∧ t = trimEnd t ++ w :=
  ⟨t.rtakeWhile isBlank, fun _ hc => List.mem_rtakeWhile_imp hc,
    List.rdropWhile_append_rtakeWhile.symm⟩

/-- The blanks that trimming takes from the start. -/
theorem exists_append_trimStart (t : Text) :
    ∃ w, (∀ c ∈ w, isBlank c = true) ∧ t = w ++ trimStart t :=
  ⟨t.takeWhile isBlank, fun _ hc => List.mem_takeWhile_imp hc,
    List.takeWhile_append_dropWhile.symm⟩

theorem trimStart_append_of_blank {w : Text} (hw : ∀ c ∈ w, isBlank c = true) (t : Text) :
    trimStart (w ++ t) = trimStart t :=
  List.dropWhile_append_of_pos hw

theorem trimStart_cons_of_not_blank {c : Char} (hc : isBlank c = false) (t : Text) :
    trimStart (c :: t) = c :: t :=
  List.dropWhile_cons_of_neg (by simp [hc])

/-- What is left when the start is trimmed does not begin with a blank. -/
theorem not_blank_of_head?_trimStart {t : Text} {c : Char} (h : (trimStart t).head? = some c) :
    isBlank c = false := by
  have hstop := List.head?_dropWhile_not isBlank t
  rw [trimStart] at h
  rw [h] at hstop
  simpa using hstop

theorem trimEnd_append_of_blank (t : Text) {w : Text} (hw : ∀ c ∈ w, isBlank c = true) :
    trimEnd (t ++ w) = trimEnd t := by
  rw [trimEnd, List.reverse_append,
    List.dropWhile_append_of_pos fun c hc => hw c (List.mem_reverse.1 hc), ← trimEnd]

/-- A character stays at the start when the end is trimmed, unless only blanks follow it. -/
theorem trimEnd_cons (c : Char) (t : Text) :
    trimEnd (c :: t) = if isBlank c = true ∧ trimEnd t = [] then [] else c :: trimEnd t := by
  simp only [trimEnd, List.reverse_cons, List.dropWhile_append]
  by_cases hb : isBlank c = true <;> by_cases ht : t.reverse.dropWhile isBlank = [] <;>
    simp [hb, ht]

theorem trimEnd_cons_of_not_blank {c : Char} (hc : isBlank c = false) (t : Text) :
    trimEnd (c :: t) = c :: trimEnd t := by
  rw [trimEnd_cons, if_neg (by simp [hc])]

theorem trimEnd_congr_cons (c : Char) {s t : Text} (h : trimEnd s = trimEnd t) :
    trimEnd (c :: s) = trimEnd (c :: t) := by
  rw [trimEnd_cons, trimEnd_cons, h]

/-- It does not matter which end is trimmed first. -/
theorem trimStart_trimEnd (t : Text) : trimStart (trimEnd t) = trim t := by
  induction t with
  | nil => rfl
  | cons c t ih =>
    by_cases hc : isBlank c = true
    · have hskip (s : Text) : trimStart (c :: s) = trimStart s := List.dropWhile_cons_of_pos hc
      rw [trim, hskip, ← trim, ← ih, trimEnd_cons]
      by_cases hnil : isBlank c = true ∧ trimEnd t = []
      · rw [if_pos hnil, hnil.2]
      · rw [if_neg hnil]
        exact hskip _
    · rw [Bool.not_eq_true] at hc
      rw [trim, trimStart_cons_of_not_blank hc, trimEnd_cons_of_not_blank hc,
        trimStart_cons_of_not_blank hc]

/-- Trimming the end as well does not touch the first character. -/
theorem head?_trim (t : Text) : (trim t).head? = (trimStart t).head? := by
  rw [trim]
  cases h : trimStart t with
  | nil => rfl
  | cons c u =>
    have hc : isBlank c = false := not_blank_of_head?_trimStart (by rw [h]; rfl)
    rw [trimEnd_cons_of_not_blank hc]
    rfl

theorem trim_congr {s t : Text} (h : trimEnd s = trimEnd t) : trim s = trim t := by
  rw [← trimStart_trimEnd, h, trimStart_trimEnd]

theorem trimStart_trimStart (t : Text) : trimStart (trimStart t) = trimStart t :=
  List.dropWhile_idempotent _ t

theorem trimEnd_trimEnd (t : Text) : trimEnd (trimEnd t) = trimEnd t :=
  List.rdropWhile_idempotent _ t

@[simp] theorem trimStart_trim (t : Text) : trimStart (trim t) = trim t := by
  rw [← trimStart_trimEnd, trimStart_trimStart]

@[simp] theorem trimEnd_trim (t : Text) : trimEnd (trim t) = trim t := trimEnd_trimEnd _

@[simp] theorem trim_trim (t : Text) : trim (trim t) = trim t := by
  rw [trim, trimStart_trim, trimEnd_trim]

@[simp] theorem trim_trimEnd (t : Text) : trim (trimEnd t) = trim t := trim_congr (trimEnd_trimEnd t)

/-- A text without blanks at its ends or between is not changed. -/
theorem trim_of_not_blank {t : Text} (h : ∀ c ∈ t, isBlank c = false) : trim t = t := by
  have hstop (s : Text) (hs : ∀ c ∈ s, isBlank c = false) : s.dropWhile isBlank = s := by
    cases s with
    | nil => rfl
    | cons c s => exact trimStart_cons_of_not_blank (hs c List.mem_cons_self) s
  rw [trim, trimStart, hstop t h, trimEnd,
    hstop t.reverse fun c hc => h c (List.mem_reverse.1 hc), List.reverse_reverse]

/-- A text is a text without blanks when blanks are trimmed from around it. -/
theorem trim_eq_iff {t s : Text} (hs : ∀ c ∈ s, isBlank c = false) :
    trim t = s ↔ ∃ w w', (∀ c ∈ w, isBlank c = true) ∧ (∀ c ∈ w', isBlank c = true) ∧
      t = w ++ (s ++ w') := by
  constructor
  · intro h
    obtain ⟨w, hw, ht⟩ := exists_append_trimStart t
    obtain ⟨w', hw', hrest⟩ := exists_append_trimEnd (trimStart t)
    rw [← trim, h] at hrest
    exact ⟨w, w', hw, hw', by rw [← hrest]; exact ht⟩
  · rintro ⟨w, w', hw, hw', rfl⟩
    rw [trim, trimStart_append_of_blank hw, ← trim, trim_congr (trimEnd_append_of_blank s hw'),
      trim_of_not_blank hs]

/-! ### Words -/

/-- What a text is cut at stands in none of the pieces. -/
theorem not_of_mem_splitOnP {p : Char → Bool} {t w : Text} (hw : w ∈ t.splitOnP p) :
    ∀ c ∈ w, p c = false := by
  induction t generalizing w with
  | nil =>
    obtain rfl : w = [] := by simpa using hw
    simp
  | cons a t ih =>
    obtain ⟨first, pieces, hpieces⟩ := List.exists_cons_of_ne_nil (List.splitOnP_ne_nil p t)
    rw [hpieces] at ih
    rw [List.splitOnP_cons_eq_if_modifyHead, hpieces] at hw
    by_cases ha : p a = true
    · rw [if_pos ha] at hw
      rcases List.mem_cons.1 hw with rfl | hw
      · simp
      · exact ih hw
    · rw [if_neg ha] at hw
      rw [Bool.not_eq_true] at ha
      rcases List.mem_cons.1 hw with rfl | hw
      · exact List.forall_mem_cons.2 ⟨ha, ih List.mem_cons_self⟩
      · exact ih (List.mem_cons_of_mem first hw)

/-- A text splits into words at each of its blanks. -/
theorem words_append_cons {c : Char} (hc : isBlank c = true) (s t : Text) :
    words (s ++ c :: t) = words s ++ words t := by
  rw [words, List.splitOnP_append_cons s t hc, List.filter_append, ← words, ← words]

theorem words_of_blank {w : Text} (hw : ∀ c ∈ w, isBlank c = true) : words w = [] := by
  induction w with
  | nil => rfl
  | cons c w ih =>
    rw [List.forall_mem_cons] at hw
    exact (words_append_cons hw.1 [] w).trans (ih hw.2)

/-- A character that is not blank begins the first word or joins it. -/
theorem words_cons_of_not_blank {c : Char} (hc : isBlank c = false) (t : Text) :
    ∃ w ws, words (c :: t) = (c :: w) :: ws := by
  obtain ⟨first, pieces, hpieces⟩ := List.exists_cons_of_ne_nil (List.splitOnP_ne_nil isBlank t)
  refine ⟨first, pieces.filter (!·.isEmpty), ?_⟩
  rw [words, List.splitOnP_cons_eq_if_modifyHead, if_neg (by simp [hc]), hpieces]
  rfl

theorem words_trimStart (t : Text) : words (trimStart t) = words t := by
  induction t with
  | nil => rfl
  | cons c t ih =>
    by_cases hc : isBlank c = true
    · rw [trimStart, List.dropWhile_cons_of_pos hc, ← trimStart, ih]
      exact (words_append_cons hc [] t).symm
    · rw [trimStart, List.dropWhile_cons_of_neg hc]

theorem words_trimEnd (t : Text) : words (trimEnd t) = words t := by
  obtain ⟨w, hw, ht⟩ := exists_append_trimEnd t
  cases w with
  | nil => rw [List.append_nil] at ht; rw [← ht]
  | cons c w =>
    rw [List.forall_mem_cons] at hw
    conv_rhs => rw [ht, words_append_cons hw.1, words_of_blank hw.2, List.append_nil]

theorem words_trim (t : Text) : words (trim t) = words t := by
  rw [trim, words_trimEnd, words_trimStart]

/-- A text without blanks is one word. -/
theorem words_of_not_blank {w : Text} (hne : w ≠ []) (hw : ∀ c ∈ w, isBlank c = false) :
    words w = [w] := by
  have hsplit : w.splitOnP isBlank = [w] :=
    List.splitOnP_eq_singleton fun c hc => by simp [hw c hc]
  rw [words, hsplit]
  simp [hne]

/-- Blanks in front belong to no word. -/
theorem words_append_of_blank {b : Text} (hb : ∀ c ∈ b, isBlank c = true) (t : Text) :
    words (b ++ t) = words t := by
  rw [← words_trimStart, trimStart_append_of_blank hb, words_trimStart]

/-- A text without blanks is the first word of a text that goes on with a blank behind it. -/
theorem words_append {w : Text} (hne : w ≠ []) (hw : ∀ c ∈ w, isBlank c = false) {t : Text}
    (ht : ∀ c ∈ t.head?, isBlank c = true) : words (w ++ t) = w :: words t := by
  cases t with
  | nil => rw [List.append_nil, words_of_not_blank hne hw, words_of_blank (by simp)]
  | cons c t =>
    have hc : isBlank c = true := ht c rfl
    have hskip : words (c :: t) = words t := words_append_cons hc [] t
    rw [words_append_cons hc, words_of_not_blank hne hw, hskip, List.singleton_append]

/-- A text is blank, or it has a first word, which ends at a blank or at the end of the text. -/
theorem blank_or_exists_word (t : Text) :
    (∀ a ∈ t, isBlank a = true) ∨
      ∃ b c w r, (∀ a ∈ b, isBlank a = true) ∧ (∀ a ∈ c :: w, isBlank a = false) ∧
        (∀ a ∈ r.head?, isBlank a = true) ∧ t = b ++ (c :: w ++ r) := by
  obtain ⟨b, hb, ht⟩ := exists_append_trimStart t
  cases hrest : trimStart t with
  | nil =>
    rw [hrest, List.append_nil] at ht
    exact .inl (ht ▸ hb)
  | cons c u =>
    have hc : isBlank c = false := not_blank_of_head?_trimStart (by rw [hrest]; rfl)
    refine .inr ⟨b, c, u.takeWhile (!isBlank ·), u.dropWhile (!isBlank ·), hb, ?_,
      fun a ha => ?_, ?_⟩
    · rw [List.forall_mem_cons]
      exact ⟨hc, fun a ha => by simpa using List.mem_takeWhile_imp ha⟩
    · have hstop := List.head?_dropWhile_not (!isBlank ·) u
      rw [Option.mem_def.1 ha] at hstop
      simpa using hstop
    · rw [List.cons_append, List.takeWhile_append_dropWhile, ← hrest]
      exact ht

theorem join_cons_cons (sep t u : Text) (ts : List Text) :
    join sep (t :: u :: ts) = t ++ sep ++ join sep (u :: ts) := List.intercalate_cons_cons

/-- Words that are joined by single spaces split again. -/
theorem words_join {ws : List Text} (h : ∀ w ∈ ws, w ≠ [] ∧ ∀ c ∈ w, isBlank c = false) :
    words (join [' '] ws) = ws := by
  induction ws with
  | nil => rfl
  | cons w ws ih =>
    rw [List.forall_mem_cons] at h
    obtain ⟨⟨hne, hw⟩, hws⟩ := h
    cases ws with
    | nil => rw [join, List.intercalate_singleton, words_of_not_blank hne hw]
    | cons v ws =>
      rw [join_cons_cons, List.append_assoc, List.singleton_append, words_append_cons rfl,
        words_of_not_blank hne hw, ih hws, List.singleton_append]

/-! ### Beginnings -/

/-- A beginning that does not end with a blank is not shortened by trimming the end. -/
theorem trimEnd_append_concat (p : Text) {c : Char} (hc : isBlank c = false) (t : Text) :
    trimEnd (p ++ c :: t) = p ++ c :: trimEnd t := by
  induction p with
  | nil => exact trimEnd_cons_of_not_blank hc t
  | cons a p ih => rw [List.cons_append, trimEnd_cons, ih, if_neg (by simp), List.cons_append]

/-- What follows a known beginning, when the end is trimmed first. -/
theorem isPrefixOf?_trimEnd (p : Text) {c : Char} (hc : isBlank c = false) (t : Text) :
    (p ++ [c]).isPrefixOf? (trimEnd t) = ((p ++ [c]).isPrefixOf? t).map trimEnd := by
  cases h : (p ++ [c]).isPrefixOf? t with
  | some r =>
    rw [Option.map_some, List.isPrefixOf?_eq_some_iff_append_eq,
      ← List.isPrefixOf?_eq_some_iff_append_eq.1 h, List.append_assoc, List.append_assoc]
    exact (trimEnd_append_concat p hc r).symm
  | none =>
    rw [Option.map_none, Option.eq_none_iff_forall_ne_some]
    intro r hr
    obtain ⟨w, -, ht⟩ := exists_append_trimEnd t
    -- the beginning is one of the whole text as well
    have hwhole : (p ++ [c]).isPrefixOf? t = some (r ++ w) := by
      rw [List.isPrefixOf?_eq_some_iff_append_eq, ← List.append_assoc,
        List.isPrefixOf?_eq_some_iff_append_eq.1 hr, ← ht]
    rw [h] at hwhole
    cases hwhole

/-- A known beginning behind some blanks. -/
theorem isPrefixOf?_trimStart_eq_some_iff {c : Char} (hc : isBlank c = false) {p t r : Text} :
    (c :: p).isPrefixOf? (trimStart t) = some r ↔
      ∃ w, (∀ b ∈ w, isBlank b = true) ∧ t = w ++ (c :: p ++ r) := by
  rw [List.isPrefixOf?_eq_some_iff_append_eq]
  constructor
  · intro h
    obtain ⟨w, hw, ht⟩ := exists_append_trimStart t
    exact ⟨w, hw, by rw [h]; exact ht⟩
  · rintro ⟨w, hw, rfl⟩
    rw [trimStart_append_of_blank hw, List.cons_append, trimStart_cons_of_not_blank hc]

theorem isPrefixOf_trimEnd (p : Text) {c : Char} (hc : isBlank c = false) (t : Text) :
    (p ++ [c]).isPrefixOf (trimEnd t) = (p ++ [c]).isPrefixOf t := by
  rw [← List.isSome_isPrefixOf?_eq_isPrefixOf, isPrefixOf?_trimEnd p hc, Option.isSome_map,
    List.isSome_isPrefixOf?_eq_isPrefixOf]

end GherkinIndex.Text
