import Mathlib.Data.List.Basic
import GherkinIndex.Proofs.Feature.Visible

/-! Lines without effect.

    Under an open doc string every line is without effect but the bare partner of its fence; where
    none is open, every line without a meaning is. Such lines may be put in or taken out: the marks
    behind them keep their order and only move, so a file keeps its tree, or its error, which moves
    along if it was behind.

        Scenario: s            Scenario: s
          ```json                ```json
          ```                    Scenario: hidden
        @a                       """
        Scenario: t              ```
                               @a                 moved by two
                               Scenario: t        moved by two -/

namespace GherkinIndex

/-- A line without effect, given the doc string that is open on reaching it. -/
def Inert (l : Locale) (opened : Option Fence) (x : Text) : Prop :=
  match opened with
  | some fence => Line.delimiter? x ≠ some ⟨fence, none⟩
  | none => Line.classify l x = none

instance (l : Locale) (opened : Option Fence) (x : Text) : Decidable (Inert l opened x) :=
  match opened with
  | some _ => inferInstanceAs (Decidable (_ ≠ _))
  | none => inferInstanceAs (Decidable (_ = _))

/-- The place of a mark when `k` lines are put in above it. -/
def Placed.moved (k : Nat) (p : Placed) : Placed := { p with line := p.line + k }

/-- The error of a file when `k` lines are put in behind line `n`: one behind that line moves, and so
    does the number of lines of a file without a feature. -/
def ParseError.moved (n k : Nat) (e : ParseError) : ParseError :=
  if e.fault = .missingFeature ∨ n < e.line then { e with line := e.line + k } else e

/-! ### Marks -/

theorem Inert.delimiter? {l : Locale} {x : Text} (h : Inert l none x) :
    Line.delimiter? x = none := by
  rw [Inert] at h
  cases hd : Line.delimiter? x with
  | none => rfl
  | some d => simp [Line.classify_eq_fence_iff.2 hd] at h

/-- The doc string that is open stays open. -/
theorem Inert.step {l : Locale} {opened : Option Fence} {x : Text} (h : Inert l opened x) :
    Fence.step opened x = opened := by
  cases opened with
  | none => simp only [Fence.step, h.delimiter?]
  | some fence =>
    cases hd : Line.delimiter? x with
    | none => simp only [Fence.step, hd]
    | some d =>
      have hopen : d.closes fence = false := by
        rw [Bool.eq_false_iff, ne_eq, Delimiter.closes_iff]
        rintro rfl
        exact h hd
      simp only [Fence.step, hd, hopen, Bool.false_eq_true, if_false]

/-- Such lines bear no marks. -/
theorem visible_inert {l : Locale} {opened : Option Fence} {xs : List Text}
    (h : ∀ x ∈ xs, Inert l opened x) (n : Nat) (after : List Text) :
    visible l opened n (xs ++ after) = visible l opened (n + xs.length) after := by
  induction xs generalizing n with
  | nil => rfl
  | cons x xs ih =>
    rw [List.forall_mem_cons] at h
    have hmark : (if opened = none then (Line.mark? l x).map (⟨n, ·⟩) else none) =
        (none : Option Placed) := by
      cases opened with
      | some fence => rfl
      | none =>
        have hx : Line.classify l x = none := h.1
        simp [Line.mark?, hx]
    rw [List.cons_append, visible_cons, hmark, h.1.step, ih h.2, List.length_cons,
      Nat.add_right_comm, ← Nat.add_assoc]
    rfl

theorem foldl_step_inert {l : Locale} {opened : Option Fence} {xs : List Text}
    (h : ∀ x ∈ xs, Inert l opened x) : xs.foldl Fence.step opened = opened := by
  induction xs with
  | nil => rfl
  | cons x xs ih =>
    rw [List.forall_mem_cons] at h
    rw [List.foldl_cons, h.1.step, ih h.2]

theorem visible_append (l : Locale) (opened : Option Fence) (n : Nat) (xs ys : List Text) :
    visible l opened n (xs ++ ys) =
      visible l opened n xs ++ visible l (xs.foldl Fence.step opened) (n + xs.length) ys := by
  induction xs generalizing opened n with
  | nil => rfl
  | cons x xs ih =>
    rw [List.cons_append, visible_cons, visible_cons, ih, List.append_assoc, List.foldl_cons,
      List.length_cons, Nat.add_right_comm, ← Nat.add_assoc]

theorem visible_add (l : Locale) (opened : Option Fence) (n k : Nat) (xs : List Text) :
    visible l opened (n + k) xs = (visible l opened n xs).map (Placed.moved k) := by
  induction xs generalizing opened n with
  | nil => rfl
  | cons x xs ih =>
    rw [visible_cons, visible_cons, List.map_append, Nat.add_right_comm, ih]
    congr 1
    cases opened with
    | some fence => rfl
    | none => cases Line.mark? l x <;> rfl

theorem line_of_mem_visible {l : Locale} {opened : Option Fence} {n : Nat} {xs : List Text}
    {p : Placed} (hp : p ∈ visible l opened n xs) : n ≤ p.line ∧ p.line < n + xs.length := by
  induction xs generalizing opened n with
  | nil => cases hp
  | cons x xs ih =>
    rw [visible_cons, List.mem_append] at hp
    rcases hp with hp | hp
    · simp only [Option.mem_toList, Option.ite_none_right_eq_some,
        Option.map_eq_some_iff] at hp
      obtain ⟨-, m, -, rfl⟩ := hp
      exact ⟨Nat.le_refl n, by simp⟩
    · have hbounds := ih hp
      rw [List.length_cons]
      omega

/-! ### Runs -/

namespace Reading
variable (f : TagFilter) (path : Option Text)

theorem run_append (r : Reading) (ps qs : List Placed) :
    r.run f path (ps ++ qs) = match r.run f path ps with
      | (r', none) => r'.run f path qs
      | (r', some e) => (r', some e) := by
  induction ps generalizing r with
  | nil => rfl
  | cons p ps ih =>
    rw [List.cons_append, run, run]
    cases r.step f path p.mark with
    | error fault => rfl
    | ok r' => exact ih r'

/-- Moved marks are taken in alike. -/
theorem run_moved (k : Nat) (r : Reading) (ps : List Placed) :
    r.run f path (ps.map (Placed.moved k)) =
      ((r.run f path ps).1,
        (r.run f path ps).2.map fun e => { e with line := e.line + k }) := by
  induction ps generalizing r with
  | nil => rfl
  | cons p ps ih =>
    rw [List.map_cons, run, run]
    cases hstep : r.step f path p.mark with
    | error fault => simp only [Placed.moved, hstep, Option.map_some]
    | ok r' => simpa only [Placed.moved, hstep] using ih r'

/-- A mark is never refused for want of a feature at the end. -/
theorem step_ne_missing (r : Reading) (m : Mark) :
    r.step f path m ≠ .error .missingFeature := by
  cases m with
  | tags ts => simp [step]
  | row t => simp [step]
  | header h t =>
    cases h <;> simp only [step] <;> split <;> simp

/-- A run is ended by a mark, not by the want of a feature. -/
theorem run_error {r r' : Reading} {ps : List Placed} {e : ParseError}
    (h : r.run f path ps = (r', some e)) :
    (∃ p ∈ ps, e.line = p.line) ∧ e.fault ≠ .missingFeature := by
  induction ps generalizing r with
  | nil => simp [run] at h
  | cons p ps ih =>
    rw [run] at h
    cases hstep : r.step f path p.mark with
    | error fault =>
      simp only [hstep, Prod.mk.injEq, Option.some.injEq] at h
      obtain ⟨-, rfl⟩ := h
      refine ⟨⟨p, List.mem_cons_self, rfl⟩, ?_⟩
      rintro rfl
      exact step_ne_missing f path r p.mark hstep
    | ok r₁ =>
      simp only [hstep] at h
      obtain ⟨⟨q, hq, hline⟩, hfault⟩ := ih h
      exact ⟨⟨q, List.mem_cons_of_mem p hq, hline⟩, hfault⟩

/-- The end of a file finds the same feature wherever it is. -/
theorem finish_moved (n k count : Nat) (hcount : 1 ≤ count) (opened : Option Fence)
    (r : Reading) :
    (r.finish f path (count + k) opened).result =
      (r.finish f path count opened).result.mapError (·.moved n k) := by
  unfold finish
  cases r.draft with
  | none =>
    simp only [Except.mapError, ParseError.moved, true_or, if_true, Except.error.injEq,
      ParseError.mk.injEq, and_true]
    omega
  | some d => rfl

end Reading

theorem ParseError.moved_zero (n : Nat) (e : ParseError) : e.moved n 0 = e := by
  simp [moved]

theorem ParseError.moved_before {n k : Nat} {e : ParseError} (hline : e.line ≤ n)
    (hfault : e.fault ≠ .missingFeature) : e.moved n k = e := by
  rw [moved, if_neg]
  rintro (h | h)
  · exact hfault h
  · omega

theorem ParseError.moved_behind {n k : Nat} {e : ParseError} (hline : n < e.line) :
    e.moved n k = { e with line := e.line + k } := by
  rw [moved, if_pos (.inr hline)]

/-! ### Files -/

/-- Lines without effect that are put in move what is behind them and change nothing else. -/
theorem parseLines_inert (f : TagFilter) (path : Option Text) {before inert after : List Text}
    (hne : before ≠ [])
    (hinert : ∀ x ∈ inert, Inert (Locale.choose path before.head?).1
      (openOn before before.length) x) :
    (parseLines f path (before ++ inert ++ after)).result =
      (parseLines f path (before ++ after)).result.mapError
        (·.moved before.length inert.length) := by
  rw [openOn, List.take_length] at hinert
  have hlength : (before ++ inert ++ after).length = (before ++ after).length + inert.length := by
    simp only [List.length_append]
    omega
  have hpos : 1 ≤ (before ++ after).length := by
    have := List.length_pos_iff.2 hne
    rw [List.length_append]
    omega
  -- the marks behind are the same ones further down
  have hmarks : visible (Locale.choose path before.head?).1 none 1 (before ++ inert ++ after) =
      visible (Locale.choose path before.head?).1 none 1 before ++
        (visible (Locale.choose path before.head?).1 (before.foldl Fence.step none)
          (1 + before.length) after).map (Placed.moved inert.length) := by
    rw [List.append_assoc, visible_append, visible_inert hinert, visible_add]
  have hopen : (before ++ inert ++ after).foldl Fence.step none =
      (before ++ after).foldl Fence.step none := by
    rw [List.foldl_append, List.foldl_append, foldl_step_inert hinert, ← List.foldl_append]
  rw [parseLines, parseLines, List.append_assoc, List.head?_append_of_ne_nil _ hne,
    List.head?_append_of_ne_nil _ hne, ← List.append_assoc]
  simp only [hmarks, hopen, hlength, visible_append, Reading.run_append, Reading.run_moved]
  generalize hbefore : Reading.run f path _ (visible _ none 1 before) = out
  obtain ⟨r, _ | e⟩ := out
  · dsimp only
    generalize hafter : r.run f path _ = out
    obtain ⟨r', _ | e⟩ := out
    · exact Reading.finish_moved f path before.length inert.length _ hpos _ r'
    · obtain ⟨⟨p, hp, hline⟩, -⟩ := Reading.run_error f path hafter
      have hbehind := (line_of_mem_visible hp).1
      simp only [Option.map_some, Except.mapError]
      rw [ParseError.moved_behind (by omega)]
  · obtain ⟨⟨p, hp, hline⟩, hfault⟩ := Reading.run_error f path hbefore
    have hin := (line_of_mem_visible hp).2
    simp only [Except.mapError]
    rw [ParseError.moved_before (by omega) hfault]

/-- What stands in a doc string may be replaced. -/
theorem parseLines_hidden (f : TagFilter) (path : Option Text) {before hidden after : List Text}
    {fence : Fence} (hopen : openOn before before.length = some fence)
    (hhidden : ∀ x ∈ hidden, Line.delimiter? x ≠ some ⟨fence, none⟩) :
    (parseLines f path (before ++ hidden ++ after)).result =
      (parseLines f path (before ++ after)).result.mapError
        (·.moved before.length hidden.length) := by
  refine parseLines_inert f path ?_ fun x hx => ?_
  · rintro rfl
    simp [openOn] at hopen
  · rw [hopen]
    exact hhidden x hx

/-- CORRECT (lines without effect): a line without effect may be put in anywhere below the first
    line. The file keeps its tree, or its kind of error, and the line of the error grows by one if
    it lies behind or is the end of a file without a feature. So two files that differ only inside a
    doc string, in lines that do not close it, have one tree, or one error that both have moved by
    what they hide. -/
theorem inert_lines_do_not_interfere (f : TagFilter) (path : Option Text) :
    (∀ (before : List Text) (x : Text) (after : List Text) (short long : Text),
        before ≠ [] → fileLines short = before ++ after → fileLines long = before ++ x :: after →
        Inert (fileLocale short) (openOn before before.length) x →
        (parse f path long).result =
          (parse f path short).result.mapError (·.moved before.length 1)) ∧
      ∀ (before hidden hidden' after : List Text) (fence : Fence) (s t : Text),
        openOn before before.length = some fence →
        (∀ x ∈ hidden ++ hidden', Line.delimiter? x ≠ some ⟨fence, none⟩) →
        fileLines s = before ++ hidden ++ after → fileLines t = before ++ hidden' ++ after →
        ∃ r : Except ParseError Node,
          (parse f path s).result = r.mapError (·.moved before.length hidden.length) ∧
          (parse f path t).result = r.mapError (·.moved before.length hidden'.length) := by
  constructor
  · intro before x after short long hne hshort hlong hx
    have hlocale : (Locale.choose path before.head?).1 = fileLocale short := by
      rw [fileLocale, hshort, List.head?_append_of_ne_nil _ hne, Locale.choose_fst]
    have hmove : (parseLines f path (before ++ [x] ++ after)).result =
        (parseLines f path (before ++ after)).result.mapError (·.moved before.length 1) :=
      parseLines_inert f path hne (by simpa [hlocale] using hx)
    rwa [List.append_assoc, List.singleton_append, ← hlong, ← hshort] at hmove
  · intro before hidden hidden' after fence s t hopen hhidden hs ht
    rw [List.forall_mem_append] at hhidden
    refine ⟨(parseLines f path (before ++ after)).result, ?_, ?_⟩
    · rw [← parseLines_hidden f path hopen hhidden.1, ← hs]
      rfl
    · rw [← parseLines_hidden f path hopen hhidden.2, ← ht]
      rfl

/-- The lines above and below what `hidingFile` hides. -/
def linesAbove : List Text := ["Feature: f".toList, "\x60\x60\x60".toList]

def linesBelow : List Text := ["\x60\x60\x60".toList, "Feature: g".toList]

/-- A file that ends with a second feature and has some lines in its doc string. -/
def hidingFile (hidden : List Text) : Text :=
  (linesAbove ++ hidden ++ linesBelow).flatMap (· ++ ['\n'])

/-- A header, a fence of the other kind and one of the same kind with a media type. -/
def hiddenLines : List Text :=
  ["Scenario: s".toList, "\"\"\"".toList, "\x60\x60\x60js".toList]

theorem inert_lines_of_hidingFile :
    linesAbove ≠ [] ∧ openOn linesAbove linesAbove.length = some .backticks ∧
      (∀ x ∈ hiddenLines ++ [], Line.delimiter? x ≠ some ⟨.backticks, none⟩) ∧
      fileLines (hidingFile hiddenLines) = linesAbove ++ hiddenLines ++ linesBelow ∧
      (parse .unfiltered none (hidingFile [])).result = .error ⟨4, .duplicateFeature⟩ ∧
      (parse .unfiltered none (hidingFile ["@a".toList])).result =
        .error ⟨5, .duplicateFeature⟩ ∧
      (parse .unfiltered none (hidingFile hiddenLines)).result =
        .error ⟨7, .duplicateFeature⟩ := by
  have hopen : openOn linesAbove linesAbove.length = some .backticks := by decide
  have hhidden : ∀ x ∈ hiddenLines ++ [], Line.delimiter? x ≠ some ⟨.backticks, none⟩ := by
    decide
  have hnone : fileLines (hidingFile []) = linesAbove ++ linesBelow := by decide
  have htag : fileLines (hidingFile ["@a".toList]) = linesAbove ++ "@a".toList :: linesBelow := by
    decide
  have hmany : fileLines (hidingFile hiddenLines) = linesAbove ++ hiddenLines ++ linesBelow := by
    decide
  have hshort : (parse .unfiltered none (hidingFile [])).result =
      .error ⟨4, .duplicateFeature⟩ := rfl
  obtain ⟨hone, hcontents⟩ := inert_lines_do_not_interfere .unfiltered none
  refine ⟨by decide, hopen, hhidden, hmany, hshort, ?_, ?_⟩
  · rw [hone linesAbove _ linesBelow _ _ (by decide) hnone htag (by decide), hshort]
    rfl
  · obtain ⟨r, hr, hr'⟩ := hcontents linesAbove hiddenLines [] linesBelow .backticks _
      (hidingFile []) hopen hhidden hmany hnone
    rw [hshort] at hr'
    rw [hr]
    cases r with
    | ok n => cases hr'
    | error e =>
      -- nothing is hidden in the short file, so its error is where it was
      have he : e.moved linesAbove.length 0 = ⟨4, .duplicateFeature⟩ := Except.error.inj hr'.symm
      rw [ParseError.moved_zero] at he
      rw [he]
      rfl

end GherkinIndex
