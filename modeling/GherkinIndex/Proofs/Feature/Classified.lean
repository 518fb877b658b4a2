import GherkinIndex.Proofs.Feature.Visible

/-! Classified lines.

    A file is read line by line, and of a line only its class is used. So a file may be given as a
    list of classes, whatever text they come from. Then the class of a line can change while its
    text stays, which no change of the text itself can do.

        "@a"            some (.mark (.tags ..))
        "Scenario: s"   some (.mark (.header .scenario ..))      or .outline, with the same text
        "prose"         none -/

namespace GherkinIndex

/-- The doc string that is open after a classified line, given the one open before it. -/
def Fence.after (opened : Option Fence) (k : Option Line) : Option Fence :=
  match opened, k with
  | some f, some (.fence d) => if d.closes f then none else some f
  | some f, _ => some f
  | none, some (.fence d) => some d.fence
  | none, _ => none

/-- The mark of line `n` if no doc string is open on it. -/
def markOf (opened : Option Fence) (n : Nat) (k : Option Line) : Option Placed :=
  match opened, k with
  | none, some (.mark m) => some ⟨n, m⟩
  | _, _ => none

/-- The marks of classified lines outside doc strings; `n` is the number of the first line. -/
def marks : Option Fence → Nat → List (Option Line) → List Placed
  | _, _, [] => []
  | opened, n, k :: ks => (markOf opened n k).toList ++ marks (Fence.after opened k) (n + 1) ks

/-- What a run over the marks of a file comes to. -/
def conclude (f : TagFilter) (path : Option Text) (count : Nat) (opened : Option Fence) :
    Reading × Option ParseError → Parsed
  | (r, some e) => ⟨.error e, r.log⟩
  | (r, none) => r.finish f path count opened

/-- The tree of classified lines, read after the events in `note`. -/
def readLines (f : TagFilter) (path : Option Text) (note : List Event) (ks : List (Option Line)) :
    Parsed :=
  conclude f path ks.length (ks.foldl Fence.after none)
    (Reading.run f path { log := note } (marks none 1 ks))

theorem Fence.step_eq_after (l : Locale) (opened : Option Fence) (x : Text) :
    Fence.step opened x = Fence.after opened (Line.classify l x) := by
  cases hd : Line.delimiter? x with
  | some d =>
    rw [Line.classify_eq_fence_iff.2 hd]
    cases opened <;> simp only [Fence.step, hd, Fence.after]
  | none =>
    have hclass : ∀ d, Line.classify l x ≠ some (.fence d) := fun d h => by
      simp [Line.classify_eq_fence_iff.1 h] at hd
    cases hk : Line.classify l x with
    | none => cases opened <;> simp only [Fence.step, hd, Fence.after]
    | some k =>
      cases k with
      | fence d => exact absurd hk (hclass d)
      | mark m => cases opened <;> simp only [Fence.step, hd, Fence.after]

theorem visible_eq_marks (l : Locale) (opened : Option Fence) (n : Nat) (xs : List Text) :
    visible l opened n xs = marks opened n (xs.map (Line.classify l)) := by
  induction xs generalizing opened n with
  | nil => rfl
  | cons x xs ih =>
    have hmark : (if opened = none then (Line.mark? l x).map (⟨n, ·⟩) else none) =
        markOf opened n (Line.classify l x) := by
      cases opened with
      | some fence => rfl
      | none =>
        rw [if_pos rfl, Line.mark?]
        cases Line.classify l x with
        | none => rfl
        | some k => cases k <;> rfl
    rw [List.map_cons, visible_cons, marks, hmark, ih, Fence.step_eq_after l]

/-- A text is read by reading its classified lines. -/
theorem parse_eq_readLines (f : TagFilter) (path : Option Text) (text : Text) :
    parse f path text = readLines f path (Locale.choose path (fileLines text).head?).2
      ((fileLines text).map (Line.classify (fileLocale text))) := by
  have hstep : (Fence.step · ·) = fun o x => Fence.after o (Line.classify (fileLocale text) x) :=
    funext fun o => funext fun x => Fence.step_eq_after _ o x
  rw [readLines, List.length_map, List.foldl_map, ← hstep, ← visible_eq_marks, fileLocale,
    ← Locale.choose_fst path]
  rfl

theorem marks_append (opened : Option Fence) (n : Nat) (ks ks' : List (Option Line)) :
    marks opened n (ks ++ ks') =
      marks opened n ks ++ marks (ks.foldl Fence.after opened) (n + ks.length) ks' := by
  induction ks generalizing opened n with
  | nil => rfl
  | cons k ks ih =>
    rw [List.cons_append, marks, marks, ih, List.append_assoc, List.foldl_cons, List.length_cons,
      Nat.add_right_comm, ← Nat.add_assoc]

/-- A line with a mark neither opens nor closes a doc string. -/
theorem after_mark (opened : Option Fence) (m : Mark) :
    Fence.after opened (some (.mark m)) = opened := by
  cases opened <;> rfl

end GherkinIndex
