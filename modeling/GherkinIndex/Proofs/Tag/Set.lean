import GherkinIndex.Tag.Set

/-! What a tag set holds.

    Adding tags one by one appends the new ones, each where it is first seen. Everything else follows
    from this equation: what was there stays in front, no tag stands twice, and whether some tags were
    collected in a set of their own before they are added makes no difference.

        [a, b]  extended by  [c, a, c, d]  is  [a, b, c, d] -/

namespace GherkinIndex

/-- A parent's tags, then the others in the order in which they are first seen. -/
def Tag.inherit (parent own : List Tag) : List Tag :=
  parent ++ (own.filter (!parent.contains ·)).eraseDups

namespace TagSet

theorem contains_iff (s : TagSet) (t : Tag) : s.contains t = true ↔ t ∈ s.toList := by
  simp [contains]

theorem insert_of_mem {s : TagSet} {t : Tag} (h : t ∈ s.toList) : s.insert t = s := by
  rw [insert, if_pos ((contains_iff s t).2 h)]

theorem insert_of_not_mem {s : TagSet} {t : Tag} (h : t ∉ s.toList) :
    s.insert t = ⟨s.toList ++ [t]⟩ := by
  rw [insert, if_neg (mt (contains_iff s t).1 h)]

/-- Adding tags one by one appends the new ones, each where it is first seen. -/
theorem toList_extend (s : TagSet) (ts : List Tag) :
    (s.extend ts).toList = Tag.inherit s.toList ts := by
  induction ts generalizing s with
  | nil => simp [extend, Tag.inherit]
  | cons t ts ih =>
    have hstep : s.extend (t :: ts) = (s.insert t).extend ts := rfl
    rw [hstep, ih, Tag.inherit, Tag.inherit]
    by_cases h : t ∈ s.toList
    · simp [insert_of_mem h, h]
    · rw [insert_of_not_mem h, List.filter_cons_of_pos (by simpa using h), List.eraseDups_cons,
        List.filter_filter, List.append_assoc, List.singleton_append]
      congr 4
      funext u
      by_cases hu : u = t <;> simp [hu]

example : (TagSet.mk [['a'], ['b']]).extend [['c'], ['a'], ['c'], ['d']] =
    ⟨[['a'], ['b'], ['c'], ['d']]⟩ := by decide

theorem mem_extend {s : TagSet} {ts : List Tag} {u : Tag} :
    u ∈ (s.extend ts).toList ↔ u ∈ s.toList ∨ u ∈ ts := by
  rw [toList_extend, Tag.inherit, List.mem_append, List.mem_eraseDups, List.mem_filter]
  by_cases h : u ∈ s.toList <;> simp [h]

theorem nodup_insert {s : TagSet} (h : s.toList.Nodup) (t : Tag) : (s.insert t).toList.Nodup := by
  by_cases ht : t ∈ s.toList
  · rwa [insert_of_mem ht]
  · rw [insert_of_not_mem ht, List.nodup_append]
    refine ⟨h, by simp, ?_⟩
    rintro a ha b hb rfl
    exact ht (List.mem_singleton.1 hb ▸ ha)

/-- No tag stands twice in a set that is filled by adding. -/
theorem nodup_extend : ∀ {s : TagSet} (ts : List Tag), s.toList.Nodup → (s.extend ts).toList.Nodup
  | _, [], h => h
  | _, t :: ts, h => nodup_extend ts (nodup_insert h t)

theorem extend_append (s : TagSet) (ts us : List Tag) :
    s.extend (ts ++ us) = (s.extend ts).extend us :=
  List.foldl_append

theorem mem_union {s o : TagSet} {u : Tag} :
    u ∈ (s.union o).toList ↔ u ∈ s.toList ∨ u ∈ o.toList :=
  mem_extend

theorem union_insert (s o : TagSet) (t : Tag) : s.union (o.insert t) = (s.union o).insert t := by
  by_cases h : t ∈ o.toList
  · rw [insert_of_mem h, insert_of_mem (mem_union.2 (.inr h))]
  · rw [insert_of_not_mem h, union, extend_append, ← union]
    rfl

/-- Tags may be added to the second of two sets or to both together. -/
theorem union_extend (s o : TagSet) (ts : List Tag) :
    s.union (o.extend ts) = (s.union o).extend ts := by
  induction ts generalizing o with
  | nil => rfl
  | cons t ts ih =>
    have hcons (p : TagSet) : p.extend (t :: ts) = (p.insert t).extend ts := rfl
    rw [hcons, hcons, ih, union_insert]

theorem union_assoc (s o p : TagSet) : (s.union o).union p = s.union (o.union p) :=
  (union_extend s o p.toList).symm

/-- Tags that are new are appended as they are. -/
theorem extend_of_nodup {s : TagSet} {ts : List Tag} (h : (s.toList ++ ts).Nodup) :
    s.extend ts = ⟨s.toList ++ ts⟩ := by
  induction ts generalizing s with
  | nil => rw [List.append_nil]; rfl
  | cons t ts ih =>
    have hnew : t ∉ s.toList := by
      intro ht
      exact (List.nodup_append.1 h).2.2 t ht t List.mem_cons_self rfl
    have hstep : s.extend (t :: ts) = (s.insert t).extend ts := rfl
    rw [List.append_cons] at h
    rw [hstep, insert_of_not_mem hnew, ih h, List.append_assoc, List.singleton_append]

/-- A set in which no tag stands twice is what its tags make when they are added one by one. -/
theorem empty_union {s : TagSet} (h : s.toList.Nodup) : TagSet.empty.union s = s :=
  extend_of_nodup h

/-- Collecting tags in a set before they are added changes nothing. -/
theorem union_ofList (s : TagSet) (ts : List Tag) : s.union (ofList ts) = s.extend ts :=
  union_extend s .empty ts

/-- The tags of a node: its parent's, then those written before it. -/
theorem toList_union_ofList (s : TagSet) (ts : List Tag) :
    (s.union (ofList ts)).toList = Tag.inherit s.toList ts := by
  rw [union_ofList, toList_extend]

end TagSet
end GherkinIndex
