import GherkinIndex.Proofs.Feature.Shape
import GherkinIndex.Proofs.Tag.Filter
import GherkinIndex.Proofs.Tag.Index

/-! The filter and the tag index agree.

    The filter looks at a scenario's tags or at the blocks of an outline, one by one. The index looks
    at all tags of a scenario or outline together. Blocks have the tags of their outline, and an
    outline in a tree has a block, so both find the same.

        @a           filter with all = @b      index
        Outline      keeps the outline         lists the outline under @a @b @c
          @b block   keeps
          @c block   drops -/

namespace GherkinIndex

/-! ### What a filter keeps of a file -/

/-- The scenarios and outlines of a file without a filter and without numbers. -/
def groups : List Section → List Node
  | [] => []
  | s :: ss => (constructs ss).filterMap (·.node? (s.feature none).tags)

section
variable {f : TagFilter} {path : Option Text} {text : Text} {n : Node}

/-- A tree has what the filter keeps of the groups of its file, with numbers. -/
theorem children_of_parse (h : (parse f path text).result = .ok n) :
    n.children = Node.renumber ((groups (fileSections text)).filterMap (Node.keep f)) := by
  obtain ⟨s, ss, hss, rfl, -⟩ := parse_eq_fates h
  rw [hss, Node.children_withChildren, fates, groups, List.filterMap_map, List.filterMap_filterMap]
  congr 2
  funext c
  exact c.fate_node f _

/-- The groups of a file have the shape below the root of its tree. -/
theorem groups_shape (h : (parse f path text).result = .ok n) :
    n.tags.Clean ∧ ∀ g ∈ groups (fileSections text), IsScenario n.tags g ∨ IsOutline n.tags g := by
  obtain ⟨s, ss, hss, rfl, -⟩ := parse_eq_fates h
  have hwritten : ∀ x ∈ s :: ss, x.Written := fun x hx => written_of_mem_fileSections (hss ▸ hx)
  have hroot : (s.feature path).tags.Clean :=
    TagSet.clean_empty.inherit (hwritten s List.mem_cons_self)
  refine ⟨hroot, fun g hg => ?_⟩
  rw [hss, groups, List.mem_filterMap] at hg
  obtain ⟨c, hc, hg⟩ := hg
  obtain ⟨hhead, hblocks⟩ := mem_of_mem_constructs hc
  exact Construct.node?_shape hroot (hwritten _ (List.mem_cons_of_mem s hhead))
    (fun b hb => hwritten b (List.mem_cons_of_mem s (hblocks hb))) g hg

/-- Each child of a tree is a group of the file that the filter keeps, with a number. -/
theorem mem_children_of_parse (h : (parse f path text).result = .ok n) {c : Node}
    (hc : c ∈ n.children) :
    ∃ g, (IsScenario n.tags g ∨ IsOutline n.tags g) ∧
      ∃ m, g.keep f = some m ∧ ∃ k, c = { m with number := k } := by
  rw [children_of_parse h] at hc
  obtain ⟨m, hm, k, rfl⟩ := Node.mem_renumber hc
  obtain ⟨g, hg, hkeep⟩ := List.mem_filterMap.1 hm
  exact ⟨g, (groups_shape h).2 g hg, m, hkeep, k, rfl⟩

theorem shape_of_child (h : (parse f path text).result = .ok n) {c : Node}
    (hc : c ∈ n.children) : IsScenario n.tags c ∨ IsOutline n.tags c := by
  obtain ⟨g, hg, m, hm, k, rfl⟩ := mem_children_of_parse h hc
  exact Node.number_shape (Node.keep_shape f hg m hm) k

end

/-! ### Tags of an outline -/

/-- An outline carries what its blocks carry. -/
theorem IsOutline.mem_effectiveTags {feature : TagSet} {o : Node} (ho : IsOutline feature o)
    {t : Tag} : t ∈ o.effectiveTags.toList ↔ ∃ b ∈ o.children, t ∈ b.tags.toList := by
  rw [Node.mem_effectiveTags]
  constructor
  · rintro (ht | ⟨-, h⟩)
    · obtain ⟨b, hb⟩ := List.exists_mem_of_ne_nil _ ho.hasBlocks
      exact ⟨b, hb, (ho.blocks b hb).tags.subset ht⟩
    · exact h
  · exact fun h => .inr ⟨ho.kind, h⟩

theorem IsScenario.effectiveTags_eq {feature : TagSet} {s : Node} (hs : IsScenario feature s) :
    s.effectiveTags = s.tags := by
  rw [Node.effectiveTags, hs.kind, if_neg (by decide)]

/-- What a filter keeps of a group carries tags that it accepts. -/
theorem Node.accepts_of_keep {f : TagFilter} {feature : TagSet} {g m : Node}
    (hg : IsScenario feature g ∨ IsOutline feature g) (hm : g.keep f = some m) :
    f.accepts m.effectiveTags = true := by
  rcases hg with hs | ho
  · rw [keep_of_scenario f hs.kind, Option.ite_none_right_eq_some, Option.some.injEq] at hm
    obtain ⟨hacc, rfl⟩ := hm
    rwa [hs.effectiveTags_eq]
  · rw [keep_of_outline f ho.kind, Option.ite_none_left_eq_some, Option.some.injEq] at hm
    obtain ⟨hkept, rfl⟩ := hm
    have hne : (g.children.filter (f.accepts ·.tags)).map (·.tags) ≠ [] := by simpa using hkept
    refine TagFilter.accepts_of_forall hne (fun t => ?_) fun s hs => ?_
    · rw [(ho.filter_blocks hkept).mem_effectiveTags]
      simp
    · obtain ⟨b, hb, rfl⟩ := List.mem_map.1 hs
      exact (List.mem_filter.1 hb).2

section
variable {f : TagFilter} {path : Option Text} {text : Text} {n : Node}

theorem accepts_of_parse (h : (parse f path text).result = .ok n) {c : Node}
    (hc : c ∈ n.children) : f.accepts c.effectiveTags = true := by
  obtain ⟨g, hg, m, hm, k, rfl⟩ := mem_children_of_parse h hc
  have hacc : f.accepts m.effectiveTags = true := Node.accepts_of_keep hg hm
  exact hacc

theorem tagsNodup_of_parse (h : (parse f path text).result = .ok n) : n.TagsNodup where
  own := (groups_shape h).1.nodup
  children := by
    intro c hc
    apply Node.nodup_effectiveTags
    rcases shape_of_child h hc with hs | ho
    · exact hs.clean.nodup
    · exact ho.clean.nodup

end

/-- CORRECT (soundness): every scenario and outline in a tree carries tags that the filter accepts.
    So an index of such trees lists nothing under a forbidden tag, and what it lists stands in the
    entries of its feature under every tag that all need and under one of those of which one is
    needed. -/
theorem accepted_in_trees_and_index {f : TagFilter} {fs : List Node}
    (hfs : ∀ n ∈ fs, ∃ path text, (parse f path text).result = .ok n) :
    (∀ n ∈ fs, ∀ c ∈ n.children, f.accepts c.effectiveTags = true) ∧
      ∀ t, ∀ e ∈ (TagIndex.build fs).under t, ∃ n ∈ fs, n.listing? t = some e ∧
        ∀ s ∈ e.scenarios, t ∉ f.noneOf.toList ∧
          (∀ u ∈ f.allOf.toList, (TagIndex.build fs).Lists n u s) ∧
          (f.anyOf.toList ≠ [] → ∃ u ∈ f.anyOf.toList, (TagIndex.build fs).Lists n u s) := by
  have hnodup : ∀ n ∈ fs, n.TagsNodup := by
    intro n hn
    obtain ⟨path, text, h⟩ := hfs n hn
    exact tagsNodup_of_parse h
  have haccepts : ∀ n ∈ fs, ∀ c ∈ n.children, f.accepts c.effectiveTags = true := by
    intro n hn c hc
    obtain ⟨path, text, h⟩ := hfs n hn
    exact accepts_of_parse h hc
  refine ⟨haccepts, fun t e he => ?_⟩
  rw [TagIndex.under_build hnodup, List.mem_filterMap] at he
  obtain ⟨n, hn, he⟩ := he
  refine ⟨n, hn, he, fun s hs => ?_⟩
  obtain ⟨c, hc, ht, rfl⟩ := Node.exists_listing?_iff.1 ⟨e, he, hs⟩
  obtain ⟨hnone, hany, hall⟩ := TagFilter.accepts_iff.1 (haccepts n hn c hc)
  have hlists : ∀ {u}, u ∈ c.effectiveTags.toList → (TagIndex.build fs).Lists n u c.tagged :=
    fun hu => TagIndex.lists_build hnodup hn hc hu
  refine ⟨fun h => hnone t h ht, fun u hu => hlists (hall u hu), fun hne => ?_⟩
  obtain ⟨u, hu, hcarried⟩ := hany.resolve_left hne
  exact ⟨u, hu, hlists hcarried⟩

/-- An outline with blocks of different tags, a scenario with a tag and one without. -/
def taggedFile : Text :=
  ("@f\nFeature: f\nScenario Outline: o\n@x\nExamples: e\n@y\nExamples: g\n" ++
    "@x\nScenario: s\nScenario: t\n").toList

/-- Wants `@f` and `@x`, and no `@y`. -/
def wantedTags : TagFilter :=
  ((TagFilter.unfiltered.needAll ["@f".toList]).needOne ["@x".toList]).forbid ["@y".toList]

theorem accepted_in_taggedFile :
    ∃ n, (parse wantedTags none taggedFile).result = .ok n ∧
      n.childTexts = ["Scenario Outline: o".toList, "Scenario: s".toList] ∧
      (∀ c ∈ n.children, wantedTags.accepts c.effectiveTags = true) ∧
      ∀ e ∈ (TagIndex.build [n]).under "@x".toList, ∀ s ∈ e.scenarios,
        (TagIndex.build [n]).Lists n "@f".toList s := by
  have hread : ∃ n, (parse wantedTags none taggedFile).result = .ok n ∧
      n.childTexts = ["Scenario Outline: o".toList, "Scenario: s".toList] := ⟨_, rfl, rfl⟩
  obtain ⟨n, hn, htexts⟩ := hread
  have hfs : ∀ m ∈ [n], ∃ path text, (parse wantedTags path text).result = .ok m :=
    fun m hm => ⟨none, taggedFile, List.mem_singleton.1 hm ▸ hn⟩
  obtain ⟨haccepts, hlisted⟩ := accepted_in_trees_and_index hfs
  refine ⟨n, hn, htexts, haccepts n List.mem_cons_self, fun e he s hs => ?_⟩
  obtain ⟨m, hm, -, hs'⟩ := hlisted _ e he
  obtain rfl := List.mem_singleton.1 hm
  exact (hs' s hs).2.1 _ (by decide)

/-! ### One tag -/

/-- The kind and text by which a report names what is listed. -/
def TaggedScenario.naming (s : TaggedScenario) : Kind × Text := (s.kind, s.text)

/-- The kind and text of a construct. -/
def Node.naming (n : Node) : Kind × Text := n.tagged.naming

/-- The name of what carries a tag. -/
def Node.carrier? (t : Tag) (c : Node) : Option (Kind × Text) :=
  if t ∈ c.effectiveTags.toList then some c.naming else none

theorem Node.carriers_naming (n : Node) (t : Tag) :
    (n.carriers t).map TaggedScenario.naming = n.children.filterMap (carrier? t) := by
  rw [carriers, List.map_map, ← List.filterMap_eq_map, List.filterMap_filter]
  refine List.filterMap_congr fun c _ => ?_
  by_cases ht : t ∈ c.effectiveTags.toList <;> simp [carrier?, naming, TagSet.contains_iff, ht]

/-- A filter that looks for one tag keeps the groups that carry it. -/
theorem Node.keep_naming {f : TagFilter} {t : Tag}
    (hf : ∀ tags : TagSet, f.accepts tags = true ↔ t ∈ tags.toList) {feature : TagSet} {g : Node}
    (hg : IsScenario feature g ∨ IsOutline feature g) :
    (g.keep f).map naming = g.carrier? t := by
  rcases hg with hs | ho
  · rw [keep_of_scenario f hs.kind, carrier?, hs.effectiveTags_eq]
    by_cases ht : t ∈ g.tags.toList
    · simp [ht, (hf g.tags).2 ht]
    · simp [ht, mt (hf g.tags).1 ht]
  · have hkept : g.children.filter (f.accepts ·.tags) = [] ↔ t ∉ g.effectiveTags.toList := by
      rw [ho.mem_effectiveTags, List.filter_eq_nil_iff]
      simp [hf]
    rw [keep_of_outline f ho.kind, carrier?]
    by_cases ht : t ∈ g.effectiveTags.toList
    · rw [if_neg (by simpa [hkept] using ht), if_pos ht]
      rfl
    · rw [if_pos (hkept.2 ht), if_neg ht]
      rfl

/-- Without a filter every group is kept. -/
theorem Node.keep_unfiltered {feature : TagSet} {g : Node}
    (hg : IsScenario feature g ∨ IsOutline feature g) : g.keep .unfiltered = some g := by
  rcases hg with hs | ho
  · rw [keep_of_scenario _ hs.kind, if_pos (TagFilter.accepts_unfiltered _)]
  · have hall : g.children.filter (TagFilter.unfiltered.accepts ·.tags) = g.children :=
      List.filter_eq_self.2 fun b _ => TagFilter.accepts_unfiltered b.tags
    rw [keep_of_outline _ ho.kind, hall, if_neg ho.hasBlocks, withChildren_children]

section
variable {path : Option Text} {text : Text} {n : Node}

theorem children_of_parse_unfiltered (h : (parse .unfiltered path text).result = .ok n) :
    n.children = Node.renumber (groups (fileSections text)) := by
  have hkeep : (groups (fileSections text)).filterMap (Node.keep .unfiltered) =
      (groups (fileSections text)).filterMap some :=
    List.filterMap_congr fun g hg => Node.keep_unfiltered ((groups_shape h).2 g hg)
  rw [children_of_parse h, hkeep, List.filterMap_some]

/-- A filter that looks for one tag leaves what the index lists under it. -/
theorem parse_one_tag {f : TagFilter} {t : Tag}
    (hf : ∀ tags : TagSet, f.accepts tags = true ↔ t ∈ tags.toList)
    (hn : (parse .unfiltered path text).result = .ok n) :
    ∃ m, (parse f path text).result = .ok m ∧ m.children.map Node.naming =
      (((TagIndex.build [n]).under t).flatMap (·.scenarios)).map TaggedScenario.naming := by
  obtain ⟨m, hm⟩ := result_ok_iff (f := f).2 (result_ok_iff.1 ⟨n, hn⟩)
  refine ⟨m, hm, ?_⟩
  calc m.children.map Node.naming
      = ((groups (fileSections text)).filterMap (Node.keep f)).map Node.naming := by
        rw [children_of_parse hm, ← List.filterMap_eq_map, Node.filterMap_renumber fun _ => rfl]
    _ = (groups (fileSections text)).filterMap (Node.carrier? t) := by
        rw [List.map_filterMap]
        exact List.filterMap_congr fun g hg => Node.keep_naming hf ((groups_shape hn).2 g hg)
    _ = n.children.filterMap (Node.carrier? t) := by
        rw [children_of_parse_unfiltered hn, Node.filterMap_renumber fun _ => rfl]
    _ = (n.carriers t).map TaggedScenario.naming := (n.carriers_naming t).symm
    _ = _ := by rw [TagIndex.scenarios_build_singleton (tagsNodup_of_parse hn)]

/-- CORRECT (agreement): a filter that needs one tag, as one of all or as one of some, leaves the
    scenarios and outlines that the index of the whole tree lists under the tag, in its order. -/
theorem filter_agrees_with_index {t : Tag} (ht : t.Written)
    (hn : (parse .unfiltered path text).result = .ok n) :
    let listed := (((TagIndex.build [n]).under t).flatMap (·.scenarios)).map TaggedScenario.naming
    (∃ m, (parse (TagFilter.unfiltered.needAll [t]) path text).result = .ok m ∧
        m.children.map Node.naming = listed) ∧
      ∃ m, (parse (TagFilter.unfiltered.needOne [t]) path text).result = .ok m ∧
        m.children.map Node.naming = listed :=
  ⟨parse_one_tag (TagFilter.accepts_needAll_singleton ht) hn,
    parse_one_tag (TagFilter.accepts_needOne_singleton ht) hn⟩

end

/-- Both ways find the outline with a tagged block and the tagged scenario. -/
theorem filter_agrees_with_index_of_taggedFile :
    Tag.Written "@x".toList ∧ ∃ n, (parse .unfiltered none taggedFile).result = .ok n ∧
      let listed := (((TagIndex.build [n]).under "@x".toList).flatMap (·.scenarios)).map
        TaggedScenario.naming
      listed = [(.outline, "Scenario Outline: o".toList), (.scenario, "Scenario: s".toList)] ∧
        ∃ m, (parse (TagFilter.unfiltered.needAll ["@x".toList]) none taggedFile).result = .ok m ∧
          m.children.map Node.naming = listed := by
  have hline : Line.tags? "@x".toList = some ["@x".toList] := rfl
  have ht : Tag.Written "@x".toList := Line.written_of_tags? hline _ List.mem_cons_self
  have hread : ∃ n, (parse .unfiltered none taggedFile).result = .ok n ∧
      (((TagIndex.build [n]).under "@x".toList).flatMap (·.scenarios)).map
        TaggedScenario.naming =
          [(.outline, "Scenario Outline: o".toList), (.scenario, "Scenario: s".toList)] :=
    ⟨_, rfl, rfl⟩
  obtain ⟨n, hn, hlisted⟩ := hread
  exact ⟨ht, n, hn, hlisted, (filter_agrees_with_index ht hn).1⟩

end GherkinIndex
