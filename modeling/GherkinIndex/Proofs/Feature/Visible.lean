import Mathlib.Tactic.ByContra
import GherkinIndex.Feature.Parse

/-! Which lines count.

    A line is visible unless a fence above it still waits for its bare partner, and only a visible
    fence waits for one. Said this way, visibility mentions no state that is carried from line to
    line; the scan that carries the open doc string finds exactly these lines.

        line      0       1        2        3        4
                  ```     """      ```js    ```      @tag
        hides     1 2 3   -        -        -        -          visible: 0 and 4 -/

namespace GherkinIndex

/-- The lines of a file; one byte-order mark at its start is not part of them. -/
def fileLines (text : Text) : List Text := Text.lines (Text.dropMark text)

/-- The keywords of a file. -/
def fileLocale (text : Text) : Locale := (Locale.choose none (fileLines text).head?).1

/-- The fence on line `i`, counted from zero. -/
def delimiterAt (xs : List Text) (i : Nat) : Option Delimiter := xs[i]?.bind Line.delimiter?

/-- Each visible fence above line `i` has met its bare partner before line `i`. -/
def Visible (xs : List Text) (i : Nat) : Prop :=
  ∀ j, j < i → Visible xs j → ∀ d, delimiterAt xs j = some d →
    ∃ k, j < k ∧ k < i ∧ delimiterAt xs k = some ⟨d.fence, none⟩
termination_by i

/-- The doc string that is open on reaching line `i`. -/
def openOn (xs : List Text) (i : Nat) : Option Fence := (xs.take i).foldl Fence.step none

/-! ### The open doc string -/

theorem Delimiter.closes_iff {d : Delimiter} {f : Fence} : d.closes f = true ↔ d = ⟨f, none⟩ := by
  obtain ⟨g, m⟩ := d
  simp [Delimiter.closes]

theorem openOn_succ (xs : List Text) (i : Nat) :
    openOn xs (i + 1) = match openOn xs i, delimiterAt xs i with
      | some f, some d => if d.closes f then none else some f
      | some f, none => some f
      | none, some d => some d.fence
      | none, none => none := by
  rw [openOn, List.take_add_one, List.foldl_append, ← openOn, delimiterAt]
  cases xs[i]? with
  | none => cases openOn xs i <;> rfl
  | some x => rfl

/-- A doc string is open exactly when a fence above, on a line where none was open, still waits for
    its partner. -/
theorem openOn_eq_some_iff {xs : List Text} {f : Fence} {i : Nat} :
    openOn xs i = some f ↔ ∃ j, j < i ∧ openOn xs j = none ∧
      (∃ m, delimiterAt xs j = some ⟨f, m⟩) ∧
      ∀ k, j < k → k < i → delimiterAt xs k ≠ some ⟨f, none⟩ := by
  induction i with
  | zero => simp [openOn]
  | succ i ih =>
    constructor
    · intro h
      rw [openOn_succ] at h
      cases ho : openOn xs i with
      | none =>
        -- nothing was open, so line `i` itself opens
        cases hd : delimiterAt xs i with
        | none => simp [ho, hd] at h
        | some d =>
          simp only [ho, hd, Option.some.injEq] at h
          exact ⟨i, by omega, ho, ⟨d.mediaType, by rw [hd, ← h]⟩, by omega⟩
      | some g =>
        have hg : g = f ∧ delimiterAt xs i ≠ some ⟨f, none⟩ := by
          cases hd : delimiterAt xs i with
          | none => simpa [ho, hd] using h
          | some d =>
            by_cases hc : d.closes g = true
            · simp [ho, hd, hc] at h
            · have hgf : g = f := by simpa [ho, hd, hc] using h
              exact ⟨hgf, fun e => hc (Delimiter.closes_iff.2 (hgf ▸ Option.some.inj e))⟩
        obtain ⟨j, hji, hj, hm, hk⟩ := ih.1 (hg.1 ▸ ho)
        refine ⟨j, by omega, hj, hm, fun k hjk hki => ?_⟩
        rcases Nat.lt_succ_iff_lt_or_eq.1 hki with hlt | rfl
        · exact hk k hjk hlt
        · exact hg.2
    · rintro ⟨j, hji, hj, ⟨m, hm⟩, hk⟩
      rw [openOn_succ]
      rcases Nat.lt_succ_iff_lt_or_eq.1 hji with hlt | rfl
      · have ho : openOn xs i = some f := ih.2 ⟨j, hlt, hj, ⟨m, hm⟩, fun k h₁ h₂ => hk k h₁ (by omega)⟩
        have hi := hk i hlt (by omega)
        cases hd : delimiterAt xs i with
        | none => simp [ho]
        | some d =>
          have hc : ¬ d.closes f = true := fun hc => hi (by rw [hd, Delimiter.closes_iff.1 hc])
          simp [ho, hc]
      · simp [hj, hm]

/-- The scan carries no doc string exactly on the visible lines. -/
theorem visible_iff_openOn (xs : List Text) (i : Nat) : Visible xs i ↔ openOn xs i = none := by
  induction i using Nat.strongRecOn with
  | ind i ih =>
    rw [Visible]
    constructor
    · intro hv
      rw [Option.eq_none_iff_forall_ne_some]
      intro f hf
      obtain ⟨j, hji, hj, ⟨m, hm⟩, hk⟩ := openOn_eq_some_iff.1 hf
      obtain ⟨k, hjk, hki, hd⟩ := hv j hji ((ih j hji).2 hj) _ hm
      exact hk k hjk hki hd
    · intro hi j hji hj d hd
      by_contra hno
      have hopen : openOn xs i = some d.fence :=
        openOn_eq_some_iff.2 ⟨j, hji, (ih j hji).1 hj, ⟨d.mediaType, hd⟩,
          fun k hjk hki hk => hno ⟨k, hjk, hki, hk⟩⟩
      rw [hi] at hopen
      cases hopen

instance (xs : List Text) (i : Nat) : Decidable (Visible xs i) :=
  decidable_of_iff _ (visible_iff_openOn xs i).symm

example :
    let xs := ["\x60\x60\x60", "\"\"\"", "\x60\x60\x60js", "\x60\x60\x60", "@tag"].map String.toList
    (List.range 5).filter (fun i => Visible xs i) = [0, 4] := by decide

/-! ### The visible marks -/

/-- What a line contributes to the structure if it is visible. -/
def Line.mark? (l : Locale) (line : Text) : Option Mark :=
  match Line.classify l line with
  | some (.mark m) => some m
  | _ => none

theorem Line.mark?_eq_some_iff {l : Locale} {x : Text} {m : Mark} :
    mark? l x = some m ↔ classify l x = some (.mark m) := by
  rw [mark?]
  cases classify l x with
  | none => simp
  | some form => cases form <;> simp

/-- Fences are looked for first. -/
theorem Line.classify_eq_fence_iff {l : Locale} {x : Text} {d : Delimiter} :
    classify l x = some (.fence d) ↔ delimiter? x = some d := by
  unfold classify
  cases delimiter? x with
  | some d' => simp
  | none =>
    dsimp only
    repeat' split
    all_goals simp

/-- The mark on line `i`, counted from zero, if the line is visible. -/
def visibleMark (l : Locale) (xs : List Text) (i : Nat) (x : Text) : Option Placed :=
  if Visible xs i then (Line.mark? l x).map (⟨i + 1, ·⟩) else none

/-- The marks of the visible lines with the numbers of their lines. -/
def visibleMarks (text : Text) : List Placed :=
  (fileLines text).zipIdx.filterMap fun (x, i) =>
    visibleMark (fileLocale text) (fileLines text) i x

/-- The scan keeps the mark of a line when no doc string is open on it. -/
theorem visible_cons (l : Locale) (opened : Option Fence) (n : Nat) (x : Text) (xs : List Text) :
    visible l opened n (x :: xs) =
      (if opened = none then (Line.mark? l x).map (⟨n, ·⟩) else none).toList ++
        visible l (Fence.step opened x) (n + 1) xs := by
  cases opened with
  | some f => rfl
  | none =>
    simp only [visible, Line.mark?]
    cases Line.classify l x with
    | none => rfl
    | some kind => cases kind <;> rfl

/-- The scan from line `before.length` on finds the marks of the visible lines there. -/
theorem visible_eq_filterMap (l : Locale) (before xs : List Text) :
    visible l (before.foldl Fence.step none) (before.length + 1) xs =
      (xs.zipIdx before.length).filterMap fun (x, i) => visibleMark l (before ++ xs) i x := by
  induction xs generalizing before with
  | nil => rfl
  | cons x xs ih =>
    have hmark : visibleMark l (before ++ x :: xs) before.length x =
        if before.foldl Fence.step none = none then
          (Line.mark? l x).map (⟨before.length + 1, ·⟩) else none := by
      simp only [visibleMark, visible_iff_openOn, openOn, List.take_left]
    have hrest := ih (before ++ [x])
    rw [List.foldl_append, List.foldl_cons, List.foldl_nil, List.append_assoc, List.singleton_append,
      List.length_append, List.length_singleton] at hrest
    rw [visible_cons, hrest, ← hmark, List.zipIdx_cons, List.filterMap_cons]
    cases hm : visibleMark l (before ++ x :: xs) before.length x <;> simp [hm]

theorem Locale.choose_fst (path : Option Text) (line : Option Text) :
    (Locale.choose path line).1 = (Locale.choose none line).1 := by
  unfold Locale.choose
  cases Locale.select line <;> rfl

/-- A file is read by running over its visible marks. -/
theorem parse_eq_run (f : TagFilter) (path : Option Text) (text : Text) :
    parse f path text =
      match Reading.run f path { log := (Locale.choose path (fileLines text).head?).2 }
          (visibleMarks text) with
      | (r, some e) => ⟨.error e, r.log⟩
      | (r, none) => r.finish f path (fileLines text).length
          (openOn (fileLines text) (fileLines text).length) := by
  have hmarks : visible (fileLocale text) none 1 (fileLines text) = visibleMarks text :=
    visible_eq_filterMap (fileLocale text) [] (fileLines text)
  have hlocale : fileLocale text = (Locale.choose path (fileLines text).head?).1 :=
    (Locale.choose_fst path _).symm
  rw [← hmarks, openOn, List.take_length, hlocale]
  rfl

end GherkinIndex
