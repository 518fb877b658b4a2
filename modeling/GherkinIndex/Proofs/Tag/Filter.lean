import GherkinIndex.Proofs.Tag.Written
import GherkinIndex.Tag.Filter

/-! What a filter accepts.

    Only membership counts for a filter, so candidates that it accepts one by one are accepted
    together as well: none of them has a forbidden tag, and the wanted tags of one are there for all. -/

namespace GherkinIndex

namespace TagSet

theorem intersects_iff {s o : TagSet} :
    s.intersects o = true ↔ ∃ t ∈ o.toList, t ∈ s.toList := by
  simp [intersects, contains_iff]

theorem includes_iff {s o : TagSet} : s.includes o = true ↔ ∀ t ∈ o.toList, t ∈ s.toList := by
  simp [includes, contains_iff]

end TagSet

/-! ### Tags as filters write them -/

/-- A tag as files write it needs no change. -/
theorem Tag.normal_of_written {t : Tag} (ht : t.Written) : Tag.normal t = t := by
  rw [normal, Text.trim_of_not_blank ht.2, if_pos ht.1]

namespace TagFilter

/-! ### Criteria -/

/-- The three criteria as statements on single tags. -/
theorem accepts_iff {f : TagFilter} {tags : TagSet} :
    f.accepts tags = true ↔
      (∀ t ∈ f.noneOf.toList, t ∉ tags.toList) ∧
        (f.anyOf.toList = [] ∨ ∃ t ∈ f.anyOf.toList, t ∈ tags.toList) ∧
        ∀ t ∈ f.allOf.toList, t ∈ tags.toList := by
  have hnone : (!tags.intersects f.noneOf) = true ↔ ∀ t ∈ f.noneOf.toList, t ∉ tags.toList := by
    rw [Bool.not_eq_true', ← Bool.not_eq_true, TagSet.intersects_iff]
    simp
  rw [accepts, Bool.and_eq_true, Bool.and_eq_true, Bool.or_eq_true, hnone, TagSet.intersects_iff,
    TagSet.includes_iff, TagSet.isEmpty, List.isEmpty_iff, and_assoc]

/-- Candidates that are accepted one by one are accepted together. -/
theorem accepts_of_forall {f : TagFilter} {tags : TagSet} {parts : List TagSet}
    (hne : parts ≠ []) (htags : ∀ t, t ∈ tags.toList ↔ ∃ s ∈ parts, t ∈ s.toList)
    (h : ∀ s ∈ parts, f.accepts s = true) : f.accepts tags = true := by
  obtain ⟨s, hs⟩ := List.exists_mem_of_ne_nil parts hne
  obtain ⟨-, hany, hall⟩ := accepts_iff.1 (h s hs)
  refine accepts_iff.2 ⟨fun t ht hmem => ?_, hany.imp_right ?_, fun t ht => ?_⟩
  · obtain ⟨s', hs', ht'⟩ := (htags t).1 hmem
    exact (accepts_iff.1 (h s' hs')).1 t ht ht'
  · rintro ⟨t, ht, hts⟩
    exact ⟨t, ht, (htags t).2 ⟨s, hs, hts⟩⟩
  · exact (htags t).2 ⟨s, hs, hall t ht⟩

/-! ### One tag -/

/-- A set with one tag as files write it. -/
theorem extend_normal_singleton {t : Tag} (ht : t.Written) :
    TagSet.extend .empty ([t].map Tag.normal) = ⟨[t]⟩ := by
  rw [List.map_singleton, Tag.normal_of_written ht]
  rfl

/-- To need one tag as one of all is to look for it. -/
theorem accepts_needAll_singleton {t : Tag} (ht : t.Written) (tags : TagSet) :
    (unfiltered.needAll [t]).accepts tags = true ↔ t ∈ tags.toList := by
  have hall : (unfiltered.needAll [t]).allOf = ⟨[t]⟩ := extend_normal_singleton ht
  rw [accepts_iff, hall]
  simp [needAll, unfiltered, TagSet.empty]

/-- To need one tag as one of some is to look for it as well. -/
theorem accepts_needOne_singleton {t : Tag} (ht : t.Written) (tags : TagSet) :
    (unfiltered.needOne [t]).accepts tags = true ↔ t ∈ tags.toList := by
  have hany : (unfiltered.needOne [t]).anyOf = ⟨[t]⟩ := extend_normal_singleton ht
  rw [accepts_iff, hany]
  simp [needOne, unfiltered, TagSet.empty]

end TagFilter
end GherkinIndex
