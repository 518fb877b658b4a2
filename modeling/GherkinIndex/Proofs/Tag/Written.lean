import GherkinIndex.Line
import GherkinIndex.Proofs.Tag.Set
import GherkinIndex.Proofs.Text.Trim

/-! Tags as files write them.

    A tag line is cut into words at its blanks, so no tag has a blank in it, and a line counts as a
    tag line only if each word on it starts with `@`. Sets that are filled from such lines and
    inherited from node to node stay this way. -/

namespace GherkinIndex

/-- A tag as a file writes it: `@` in front and no blank in it. -/
def Tag.Written (t : Tag) : Prop := t.head? = some '@' ∧ ∀ c ∈ t, Text.isBlank c = false

/-- Tags as a file writes them, none twice. -/
structure TagSet.Clean (s : TagSet) : Prop where
  nodup : s.toList.Nodup
  written : ∀ t ∈ s.toList, Tag.Written t

/-! ### Words -/

theorem Text.not_blank_of_mem_words {t w : Text} (hw : w ∈ words t) :
    ∀ c ∈ w, isBlank c = false := by
  rw [words, List.mem_filter] at hw
  exact not_of_mem_splitOnP hw.1

/-! ### Lines -/

theorem Line.written_of_tags? {line : Text} {ts : List Tag} (h : tags? line = some ts) :
    ∀ t ∈ ts, t.Written := by
  intro t ht
  simp only [tags?, Option.ite_none_right_eq_some, Bool.and_eq_true, Option.some.injEq] at h
  obtain ⟨⟨-, hall⟩, rfl⟩ := h
  have hname := List.all_eq_true.1 hall t ht
  have hword : t ∈ Text.words line := (List.takeWhile_sublist _).subset ht
  rw [Bool.and_eq_true, beq_iff_eq] at hname
  exact ⟨hname.1, Text.not_blank_of_mem_words hword⟩

/-- Only a tag line contributes tags. -/
theorem Line.tags?_of_classify {l : Locale} {line : Text} {ts : List Tag}
    (h : classify l line = some (.mark (.tags ts))) : tags? line = some ts := by
  rw [classify] at h
  cases hd : delimiter? line with
  | some d => simp [hd] at h
  | none =>
    cases ht : tags? line with
    | some us => simpa [hd, ht] using h
    | none =>
      cases hm : header? l line with
      | none => simp [hd, ht, hm] at h
      | some m =>
        obtain rfl : m = .tags ts := by simpa [hd, ht, hm] using h
        obtain ⟨k, -, hk⟩ := List.exists_of_findSome?_eq_some hm
        obtain ⟨t, -, hheader⟩ := Option.map_eq_some_iff.1 hk
        cases hheader

/-! ### Sets -/

theorem TagSet.clean_empty : TagSet.Clean .empty := ⟨List.nodup_nil, by simp [empty]⟩

/-- What a node inherits and what is written before it are clean together. -/
theorem TagSet.Clean.inherit {s : TagSet} (hs : s.Clean) {own : List Tag}
    (hown : ∀ t ∈ own, t.Written) : TagSet.Clean ⟨Tag.inherit s.toList own⟩ := by
  rw [← toList_extend]
  refine ⟨nodup_extend own hs.nodup, fun t ht => ?_⟩
  rcases mem_extend.1 ht with h | h
  · exact hs.written t h
  · exact hown t h

end GherkinIndex
