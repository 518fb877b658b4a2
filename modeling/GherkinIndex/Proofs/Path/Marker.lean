import GherkinIndex.Proofs.Path.Join
import GherkinIndex.Proofs.Path.Root
import GherkinIndex.Proofs.Text.Trim

/-! The marker of an input and the paths below it.

    The marker is looked for among the pieces of the input, and a path is cut by a search through its
    text. They agree: a path that starts with the literal pieces of the input, and goes on behind
    them, is cut at a place where the marker stands as a whole component.

        input    ./specs//pay/*.feature      literal pieces  .  specs  (empty)  pay
        marker   specs                       the first name, as the input is relative
        path     specs/pay/a.feature    ──▶  specs/pay/a.feature

    A marker is one component, so no occurrence of it can run into another. -/

namespace GherkinIndex.Path

/-! ### Pieces -/

/-- A path cut at slashes and backslashes. -/
def pieces (p : Text) : List Text := p.splitOnP fun c => c == '/' || c == '\\'

/-- The pieces of an input before the first one with a glob character. -/
def literalPieces (input : Text) : List Text := (pieces input).takeWhile (!hasGlob ·)

/-- A piece that may be a marker. -/
structure NamesDirectory (c : Text) : Prop where
  notEmpty : c ≠ []
  notHere : c ≠ ['.']
  notUp : c ≠ ['.', '.']
  notFeature : ¬ IsFeatureName c

/-- Some empty pieces and dots are left out. -/
inductive Tidied : List Text → List Text → Prop
  | nil : Tidied [] []
  | keep (c : Text) {cs ds : List Text} : Tidied cs ds → Tidied (c :: cs) (c :: ds)
  | drop {c : Text} {cs ds : List Text} : c = [] ∨ c = ['.'] → Tidied cs ds → Tidied (c :: cs) ds

/-- An input that starts at the root of the disk. -/
def StartsAtRoot (input : Text) : Prop := input.head? = some '/' ∨ input.head? = some '\\'

/-- The first name among the literal pieces of a relative input, the last one of an absolute
    input. -/
def IsMarker (input m : Text) : Prop :=
  NamesDirectory m ∧ ∃ before after, literalPieces input = before ++ m :: after ∧
    (¬ StartsAtRoot input → ∀ c ∈ before, ¬ NamesDirectory c) ∧
    (StartsAtRoot input → ∀ c ∈ after, ¬ NamesDirectory c)

/-- No piece has a slash. -/
theorem slash_not_mem_of_mem_pieces {p c : Text} (hc : c ∈ pieces p) : '/' ∉ c := by
  intro hmem
  simpa using Text.not_of_mem_splitOnP hc '/' hmem

/-- With forward slashes only, a path has the same pieces. -/
theorem splitOn_forward (p : Text) : (forward p).splitOn '/' = pieces p := by
  induction p with
  | nil => rfl
  | cons c p ih =>
    have hhead : forward (c :: p) = (if c = '\\' then '/' else c) :: forward p := rfl
    rw [hhead, List.splitOn_cons_eq_if_modifyHead, ih, pieces, pieces,
      List.splitOnP_cons_eq_if_modifyHead]
    by_cases hc : c = '\\'
    · simp [hc]
    · simp [hc]

/-- A piece with something behind it is an occurrence at the start of a component. -/
theorem exists_split_of_pieces (before after : List Text) (c next : Text) :
    ∃ left right, ['/'].intercalate (before ++ c :: next :: after) = left ++ (c ++ '/' :: right) ∧
      (left = [] ∨ left.getLast? = some '/') := by
  induction before with
  | nil =>
    refine ⟨[], ['/'].intercalate (next :: after), ?_, .inl rfl⟩
    rw [List.nil_append, List.intercalate_cons_cons, List.nil_append, List.append_assoc,
      List.singleton_append]
  | cons b before ih =>
    obtain ⟨left, right, hsplit, hleft⟩ := ih
    refine ⟨b ++ '/' :: left, right, ?_, .inr ?_⟩
    · rw [List.cons_append, List.intercalate_cons_of_ne_nil (by simp), hsplit]
      simp
    · rcases hleft with rfl | hlast
      · simp
      · rw [List.getLast?_append, List.getLast?_cons, hlast]
        rfl

/-! ### Roots of one component -/

section
variable {root p : Text} (hroot : root ≠ []) (hslash : '/' ∉ root)
include hslash

theorem stripSlashes_eq_self : stripSlashes root = root := by
  have hkeep : ∀ t : Text, '/' ∉ t → t.dropWhile (· == '/') = t := by
    intro t ht
    cases t with
    | nil => rfl
    | cons c t =>
      have hc : c ≠ '/' := fun h => ht (h ▸ List.mem_cons_self)
      exact List.dropWhile_cons_of_neg (by simpa using hc)
  have hreverse : '/' ∉ root.reverse := by simpa using hslash
  rw [stripSlashes, hkeep root hslash, hkeep _ hreverse, List.reverse_reverse]

theorem marker_eq : marker root = root ++ ['/'] := by
  rw [marker, stripSlashes_eq_self hslash]

theorem not_runsIntoItself : ¬ RunsIntoItself root := by
  rintro ⟨-, k, hpos, hlt, hagain, -⟩
  rw [marker_eq hslash, List.length_append, List.length_singleton] at hlt
  rw [marker_eq hslash, List.drop_append_of_le_length (by omega)] at hagain
  have hwithin : root.drop k ++ ['/'] <+: root :=
    List.prefix_of_prefix_length_le hagain (List.prefix_append ..) (by simp; omega)
  exact hslash (hwithin.subset (by simp))

include hroot

/-- A root of one component is found where it is a piece that is not the last one. -/
theorem marker_isPrefix_relativeTo {before after : List Text} {next : Text}
    (h : pieces p = before ++ root :: next :: after) : root ++ ['/'] <+: relativeTo root p := by
  obtain ⟨left, right, hsplit, hleft⟩ := exists_split_of_pieces before after root next
  have hpath : forward p = left ++ (root ++ '/' :: right) := by
    rw [← hsplit, ← h, ← splitOn_forward, List.intercalate_splitOn]
  have hplace : MarksAt (marker root) (forward p) left.length := by
    refine ⟨?_, ?_⟩
    · rw [OccursAt, hpath, List.drop_left, marker_eq hslash]
      exact ⟨right, by simp⟩
    · rcases hleft with rfl | hlast
      · exact .inl rfl
      · refine .inr ?_
        obtain ⟨stem, rfl⟩ := List.getLast?_eq_some_iff.1 hlast
        simp [hpath]
  have hcut : CutAtLast root p (relativeTo root p) := by
    refine cutAtLast_of_clear ?_
    rintro i hi ⟨k, hk⟩
    exact not_runsIntoItself hslash (runsIntoItself_of_runsInto hi.1 hk)
  generalize relativeTo root p = shown at hcut
  cases hcut with
  | noRoot empty => exact absurd ((stripSlashes_eq_self hslash).symm.trans empty) hroot
  | absent nowhere => exact absurd hplace (nowhere _)
  | last _ greatest =>
    rw [← marker_eq hslash]
    exact greatest.1.occurs

end

/-! ### Markers of inputs -/

section
variable {input : Text}

theorem slash_not_mem_of_mem_literalPieces {c : Text} (hc : c ∈ literalPieces input) : '/' ∉ c :=
  slash_not_mem_of_mem_pieces ((List.takeWhile_sublist _).subset hc)

theorem fileName_piece {c : Text} (hslash : '/' ∉ c) (hne : c ≠ []) (hhere : c ≠ ['.'])
    (hup : c ≠ ['.', '.']) : fileName c = some c := by
  have habs : isAbsolute c = false := by
    obtain ⟨a, c, rfl⟩ := List.exists_cons_of_ne_nil hne
    have ha : a ≠ '/' := fun h => hslash (h ▸ List.mem_cons_self)
    simpa [isAbsolute] using ha
  simp [fileName, components, List.splitOn_eq_singleton hslash, habs, component?, hne, hhere, hup]

/-- The literal directories of an input are the pieces that may be a marker. -/
theorem literalDirectories_eq_filter (input : Text) : ∃ test : Text → Bool,
    literalDirectories input = (literalPieces input).filter test ∧
      ∀ c ∈ literalPieces input, test c = true ↔ NamesDirectory c := by
  refine ⟨_, rfl, fun c hc => ?_⟩
  have hslash := slash_not_mem_of_mem_literalPieces hc
  constructor
  · intro h
    simp only [Bool.and_eq_true, Bool.not_eq_true', bne_iff_ne, List.isEmpty_eq_false_iff] at h
    obtain ⟨⟨⟨hne, hhere⟩, hup⟩, hfeature⟩ := h
    refine ⟨hne, hhere, hup, fun hname => ?_⟩
    rw [(isFeature_iff (fileName_piece hslash hne hhere hup)).2 hname] at hfeature
    cases hfeature
  · rintro ⟨hne, hhere, hup, hfeature⟩
    rw [← isFeature_iff (fileName_piece hslash hne hhere hup)] at hfeature
    simp [hne, hhere, hup, hfeature]

theorem isMarker_rootMarker (h : ∃ c ∈ literalPieces input, NamesDirectory c) :
    IsMarker input (rootMarker input) := by
  obtain ⟨test, hdirs, htest⟩ := literalDirectories_eq_filter input
  have hne : literalDirectories input ≠ [] := by
    obtain ⟨c, hc, hname⟩ := h
    rw [hdirs]
    exact List.ne_nil_of_mem (List.mem_filter.2 ⟨hc, (htest c hc).2 hname⟩)
  by_cases habs : StartsAtRoot input
  · -- the last directory: what stands behind it is none
    obtain ⟨init, m, hinit⟩ := List.eq_nil_or_concat' (literalDirectories input) |>.resolve_left hne
    have hchosen : rootMarker input = m := by
      have hguard : (input.head? == some '/' || input.head? == some '\\') = true := by
        simpa [StartsAtRoot] using habs
      simp [rootMarker, hguard, hinit]
    rw [hdirs] at hinit
    obtain ⟨front, back, hsplit, -, hback⟩ := List.filter_eq_append_iff.1 hinit
    obtain ⟨between, after, hback', -, hm, hafter⟩ := List.filter_eq_cons_iff.1 hback
    have hmem : m ∈ literalPieces input := by simp [hsplit, hback']
    rw [hchosen]
    refine ⟨(htest m hmem).1 hm, front ++ between, after, ?_, fun hno => absurd habs hno, ?_⟩
    · rw [hsplit, hback', List.append_assoc]
    · intro _ c hc hname
      have hcmem : c ∈ literalPieces input := by simp [hsplit, hback', hc]
      exact List.filter_eq_nil_iff.1 hafter c hc ((htest c hcmem).2 hname)
  · -- the first directory: what stands before it is none
    obtain ⟨m, rest, hcons⟩ := List.exists_cons_of_ne_nil hne
    have hchosen : rootMarker input = m := by
      have hguard : (input.head? == some '/' || input.head? == some '\\') = false := by
        simpa [StartsAtRoot] using habs
      simp [rootMarker, hguard, hcons]
    rw [hdirs] at hcons
    obtain ⟨before, after, hsplit, hbefore, hm, -⟩ := List.filter_eq_cons_iff.1 hcons
    have hmem : m ∈ literalPieces input := by simp [hsplit]
    rw [hchosen]
    refine ⟨(htest m hmem).1 hm, before, after, hsplit, ?_, fun hyes => absurd hyes habs⟩
    intro _ c hc hname
    have hcmem : c ∈ literalPieces input := by simp [hsplit, hc]
    exact hbefore c hc ((htest c hcmem).2 hname)

/-- A name is not left out. -/
theorem Tidied.mem {cs kept : List Text} (h : Tidied cs kept) {c : Text} (hc : c ∈ cs)
    (hname : NamesDirectory c) : c ∈ kept := by
  induction h with
  | nil => exact hc
  | keep d _ ih =>
    rcases List.mem_cons.1 hc with rfl | hc
    · exact List.mem_cons_self
    · exact List.mem_cons_of_mem d (ih hc)
  | drop hidle _ ih =>
    rcases List.mem_cons.1 hc with rfl | hc
    · rcases hidle with h | h
      · exact absurd h hname.notEmpty
      · exact absurd h hname.notHere
    · exact ih hc

end

/-- CORRECT (markers): if some literal piece of an input may be a marker, then a path that starts
    with its literal pieces, empty ones and dots left out or not, and has a further piece behind
    them, is shown from the marker on: the first such piece of a relative input, the last one of an
    absolute input. -/
theorem relativeTo_rootMarker {input path : Text} {kept more : List Text}
    (hnamed : ∃ c ∈ literalPieces input, NamesDirectory c)
    (hkept : Tidied (literalPieces input) kept) (hmore : more ≠ [])
    (hpath : pieces path = kept ++ more) :
    IsMarker input (rootMarker input) ∧
      rootMarker input ++ ['/'] <+: relativeTo (rootMarker input) path := by
  have hmarker := isMarker_rootMarker hnamed
  refine ⟨hmarker, ?_⟩
  obtain ⟨hname, before, after, hsplit, -⟩ := hmarker
  have hmem : rootMarker input ∈ literalPieces input := by simp [hsplit]
  obtain ⟨front, back, hback⟩ := List.append_of_mem (hkept.mem hmem hname)
  obtain ⟨next, rest, hrest⟩ := List.exists_cons_of_ne_nil
    (List.append_ne_nil_of_right_ne_nil back hmore)
  have hpieces : pieces path = front ++ rootMarker input :: next :: rest := by
    rw [hpath, hback, List.append_assoc, List.cons_append, hrest]
  exact marker_isPrefix_relativeTo hname.notEmpty (slash_not_mem_of_mem_literalPieces hmem) hpieces

/-- An absolute input with an empty piece, a dot and a feature file before its glob. -/
def tangledInput : Text := "/srv//app/./features\\old.feature/x*/y".toList

/-- A path below it, in which its marker stands once more. -/
def tangledPath : Text := "srv/app\\features/old.feature/features/c.feature".toList

theorem relativeTo_rootMarker_tangled :
    NamesDirectory "features".toList ∧ "features".toList ∈ literalPieces tangledInput ∧
      rootMarker tangledInput = "features".toList ∧
      "features/".toList <+: relativeTo "features".toList tangledPath ∧
      relativeTo "features".toList tangledPath = "features/c.feature".toList := by
  have hname : NamesDirectory "features".toList := by
    refine ⟨by decide, by decide, by decide, ?_⟩
    rintro ⟨stem, ext, -, hsplit, -⟩
    have hdot : '.' ∈ "features".toList := by simp [hsplit]
    exact absurd hdot (by decide)
  have hliteral : literalPieces tangledInput = [[], "srv".toList, [], "app".toList, ['.'],
      "features".toList, "old.feature".toList] := by decide
  have hmem : "features".toList ∈ literalPieces tangledInput := by simp [hliteral]
  have hmarker : rootMarker tangledInput = "features".toList := by decide
  have hkept : Tidied (literalPieces tangledInput)
      ["srv".toList, "app".toList, "features".toList, "old.feature".toList] := by
    rw [hliteral]
    exact .drop (.inl rfl) (.keep _ (.drop (.inl rfl) (.keep _ (.drop (.inr rfl)
      (.keep _ (.keep _ .nil))))))
  have hpath : pieces tangledPath = ["srv".toList, "app".toList, "features".toList,
      "old.feature".toList] ++ ["features".toList, "c.feature".toList] := by decide
  have hshown := (relativeTo_rootMarker ⟨_, hmem, hname⟩ hkept (by decide) hpath).2
  rw [hmarker] at hshown
  exact ⟨hname, hmem, hmarker, hshown, by decide⟩

end GherkinIndex.Path
