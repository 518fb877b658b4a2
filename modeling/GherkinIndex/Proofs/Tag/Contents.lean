import GherkinIndex.Proofs.Feature.Listing

/-! What the tag index holds, in full.

    The index is the features read the other way round. Whatever the trees, as long as no tag stands
    twice on a node: a tag is a key if something uses it, the keys come in increasing order, and under
    each of them stand the features that use it, in their order, each with what carries the tag in it.

        feature f @a         @a   f: s t        a tag of the feature, so all of it
        ├─ s @a              @b   f: t
        └─ t @a @b           @c   g:            on the feature alone, nothing carries it
        feature g @c -/

namespace GherkinIndex

namespace Node

/-- A scenario carries its tags, an outline those of its blocks too. -/
def Carries (c : Node) (t : Tag) : Prop :=
  t ∈ c.tags.toList ∨ c.kind = .outline ∧ ∃ b ∈ c.children, t ∈ b.tags.toList

instance (c : Node) (t : Tag) : Decidable (c.Carries t) :=
  inferInstanceAs (Decidable (_ ∨ _))

/-- A feature uses its tags and what its scenarios and outlines carry. -/
def Uses (n : Node) (t : Tag) : Prop := t ∈ n.tags.toList ∨ ∃ c ∈ n.children, c.Carries t

instance (n : Node) (t : Tag) : Decidable (n.Uses t) := inferInstanceAs (Decidable (_ ∨ _))

/-- No tag stands twice on a feature, nor on one of its scenarios and outlines. -/
structure DistinctTags (n : Node) : Prop where
  own : n.tags.toList.Nodup
  children : ∀ c ∈ n.children, c.tags.toList.Nodup

/-- The entry of a feature under a tag: the carriers, each with its kind, text and number. -/
def entry (n : Node) (t : Tag) : TaggedFeature where
  text := n.text
  path := n.path
  scenarios := (n.children.filter (Carries · t)).map fun c => ⟨c.kind, c.text, c.number⟩

theorem DistinctTags.nodup {n : Node} (h : n.DistinctTags) : n.TagsNodup :=
  ⟨h.own, fun c hc => nodup_effectiveTags (h.children c hc)⟩

theorem contains_effectiveTags (c : Node) (t : Tag) :
    c.effectiveTags.contains t = decide (c.Carries t) := by
  rw [Bool.eq_iff_iff, TagSet.contains_iff, mem_effectiveTags, decide_eq_true_iff, Carries]

theorem uses_eq (n : Node) (t : Tag) : n.uses t = decide (n.Uses t) := by
  rw [Bool.eq_iff_iff, decide_eq_true_iff, uses, Uses, Bool.or_eq_true, TagSet.contains_iff,
    List.any_eq_true]
  simp only [contains_effectiveTags, decide_eq_true_iff]

theorem listing?_eq (n : Node) (t : Tag) :
    n.listing? t = if n.Uses t then some (n.entry t) else none := by
  rw [listing?, uses_eq, carriers]
  simp only [contains_effectiveTags, decide_eq_true_iff]
  rfl

theorem distinctTags_of_parse {f : TagFilter} {path : Option Text} {text : Text} {n : Node}
    (h : (parse f path text).result = .ok n) : n.DistinctTags where
  own := (isFeature_of_parse h).clean.nodup
  children c hc := by
    rcases (isFeature_of_parse h).constructs c hc with hs | ho
    · exact hs.clean.nodup
    · exact ho.clean.nodup

/-- What a parsed feature is tagged with all of it carries. -/
theorem entry_of_parse {f : TagFilter} {path : Option Text} {text : Text} {n : Node}
    (h : (parse f path text).result = .ok n) {t : Tag} (ht : t ∈ n.tags.toList) :
    n.entry t = ⟨n.text, n.path, n.children.map tagged⟩ := by
  have hall : n.children.filter (Carries · t) = n.children := by
    rw [List.filter_eq_self]
    intro c hc
    rw [decide_eq_true_iff]
    rcases (isFeature_of_parse h).constructs c hc with hs | ho
    · exact .inl (hs.tags.subset ht)
    · exact .inl (ho.tags.subset ht)
  rw [entry, hall]
  rfl

end Node

namespace TagIndex

theorem increasing_build {fs : List Node} (hfs : ∀ n ∈ fs, n.TagsNodup) :
    (build fs).groups.Increasing :=
  (foldl_addFeature_spec Groups.increasing_nil hfs []).1

/-- The tags of an index are those under which it finds something. -/
theorem mem_tags_iff {index : TagIndex} {t : Tag} : t ∈ index.tags ↔ index.features? t ≠ none := by
  rw [tags, features?, Ne, List.lookup_eq_none_iff, List.mem_map]
  simp only [bne_iff_ne, not_forall, not_not]
  constructor
  · rintro ⟨e, he, rfl⟩
    exact ⟨e, he, rfl⟩
  · rintro ⟨e, he, heq⟩
    exact ⟨e, he, heq.symm⟩

/-- Under a tag stand the entries of the features that use it. -/
theorem features?_build_eq {fs : List Node} (hfs : ∀ n ∈ fs, n.DistinctTags) (t : Tag) :
    (build fs).features? t =
      if ∃ n ∈ fs, n.Uses t then some ((fs.filter (·.Uses t)).map (·.entry t)) else none := by
  have hentries : fs.filterMap (·.listing? t) = (fs.filter (·.Uses t)).map (·.entry t) := by
    rw [← List.filterMap_eq_map, List.filterMap_filter]
    refine List.filterMap_congr fun n _ => ?_
    rw [Node.listing?_eq]
    simp
  rw [features?_build fun n hn => (hfs n hn).nodup, hentries, Groups.ofItems?]
  by_cases huses : ∃ n ∈ fs, n.Uses t
  · rw [if_pos huses, if_neg (by simpa using huses)]
  · rw [if_neg huses, if_pos (by simpa using huses)]

/-- CORRECT (contents): the tags of an index are those that some feature uses, in increasing order.
    Under each of them stands one entry for each feature that uses it, in their order, with all that
    carries the tag there. Under a tag of a parsed feature that is everything in it. -/
theorem build_holds_exactly {fs : List Node} (hfs : ∀ n ∈ fs, n.DistinctTags) :
    (build fs).tags.Pairwise (Text.precedes · · = true) ∧ ∀ t,
      (t ∈ (build fs).tags ↔ ∃ n ∈ fs, n.Uses t) ∧
      (build fs).features? t =
        (if ∃ n ∈ fs, n.Uses t then some ((fs.filter (·.Uses t)).map (·.entry t)) else none) ∧
      ∀ n ∈ fs, t ∈ n.tags.toList → (∃ f path text, (parse f path text).result = .ok n) →
        ⟨n.text, n.path, n.children.map Node.tagged⟩ ∈ (build fs).under t := by
  have hbuild := features?_build_eq hfs
  refine ⟨?_, fun t => ⟨?_, hbuild t, ?_⟩⟩
  · rw [tags, List.pairwise_map]
    exact increasing_build fun n hn => (hfs n hn).nodup
  · rw [mem_tags_iff, hbuild t]
    simp
  · rintro n hn ht ⟨f, path, text, hparse⟩
    have huses : n.Uses t := .inl ht
    rw [← Node.entry_of_parse hparse ht, under, hbuild t, if_pos ⟨n, hn, huses⟩, Option.getD_some]
    exact List.mem_map.2 ⟨n, List.mem_filter.2 ⟨hn, by simpa using huses⟩, rfl⟩

theorem build_holds_exactly_taggedFile :
    ∃ n, (parse .unfiltered none taggedFile).result = .ok n ∧ n.DistinctTags ∧
      (build [n]).features? "@y".toList =
        some [⟨"Feature: f".toList, none, [⟨.outline, "Scenario Outline: o".toList, none⟩]⟩] ∧
      ⟨n.text, n.path, n.children.map Node.tagged⟩ ∈ (build [n]).under "@f".toList := by
  have hread : ∃ n, (parse .unfiltered none taggedFile).result = .ok n ∧
      n.tags.toList = ["@f".toList] ∧ n.Uses "@y".toList ∧ n.entry "@y".toList =
        ⟨"Feature: f".toList, none, [⟨.outline, "Scenario Outline: o".toList, none⟩]⟩ :=
    ⟨_, rfl, rfl, by decide, rfl⟩
  obtain ⟨n, hn, htags, huses, hentry⟩ := hread
  have hdistinct : ∀ m ∈ [n], m.DistinctTags := by simpa using Node.distinctTags_of_parse hn
  obtain ⟨-, hholds⟩ := build_holds_exactly hdistinct
  refine ⟨n, hn, hdistinct n List.mem_cons_self, ?_, ?_⟩
  · rw [(hholds _).2.1, if_pos ⟨n, List.mem_cons_self, huses⟩,
      List.filter_cons_of_pos (by simpa using huses), List.filter_nil, List.map_singleton, hentry]
  · exact (hholds _).2.2 n List.mem_cons_self (by simp [htags]) ⟨_, _, _, hn⟩

end TagIndex
end GherkinIndex
