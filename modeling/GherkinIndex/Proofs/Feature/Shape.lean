import GherkinIndex.Proofs.Feature.Pruning
import GherkinIndex.Proofs.Tag.Written

/-! The shape of every tree.

    Whatever the file, the path and the filter, a tree that comes out has four levels at most, each
    with its own kind of node, and the tags of a node start with those of the node above it.

        feature    a           path, the only one in the tree
        outline    a b         blocks, at least one
        examples   a b c       rows
        row        a b c

    The tree is what a filter keeps of the constructs, with numbers. The groups of the constructs have
    the shape, and keeping less of them or numbering them takes nothing of it away. -/

namespace GherkinIndex

/-- What holds of each node below one with the tags `inherited`. -/
structure IsBelow (inherited : TagSet) (n : Node) : Prop where
  path : n.path = none
  tags : inherited.toList <+: n.tags.toList
  clean : n.tags.Clean

structure IsRow (block : TagSet) (n : Node) : Prop extends IsBelow block n where
  kind : n.kind = .row
  childless : n.children = []
  sameTags : n.tags = block

structure IsBlock (outline : TagSet) (n : Node) : Prop extends IsBelow outline n where
  kind : n.kind = .examples
  rows : ∀ r ∈ n.children, IsRow n.tags r

structure IsScenario (feature : TagSet) (n : Node) : Prop extends IsBelow feature n where
  kind : n.kind = .scenario
  childless : n.children = []

structure IsOutline (feature : TagSet) (n : Node) : Prop extends IsBelow feature n where
  kind : n.kind = .outline
  hasBlocks : n.children ≠ []
  blocks : ∀ b ∈ n.children, IsBlock n.tags b

/-- A tree with a feature at its root, of the file at `path`. -/
structure IsFeature (path : Option Text) (n : Node) : Prop where
  kind : n.kind = .feature
  path : n.path = path
  clean : n.tags.Clean
  constructs : ∀ c ∈ n.children, IsScenario n.tags c ∨ IsOutline n.tags c

/-! ### Sections -/

/-- The tags before a header are tags as files write them. -/
def Section.Written (s : Section) : Prop := ∀ t ∈ s.own, t.Written

theorem mem_tagsIn {ms : List Mark} {t : Tag} : t ∈ tagsIn ms ↔ ∃ ts, .tags ts ∈ ms ∧ t ∈ ts := by
  rw [tagsIn, List.mem_flatMap]
  constructor
  · rintro ⟨m, hm, ht⟩
    cases m with
    | tags ts => exact ⟨ts, hm, ht⟩
    | header h t => simp at ht
    | row t => simp at ht
  · rintro ⟨ts, hts, ht⟩
    exact ⟨_, hts, ht⟩

/-- A section takes its tags from the tag lines of the file. -/
theorem own_subset_tagsIn {before ms : List Mark} {s : Section} (hs : s ∈ sections before ms) :
    s.own ⊆ tagsIn (before ++ ms) := by
  induction ms generalizing before with
  | nil => simp [sections] at hs
  | cons m ms ih =>
    cases m with
    | tags ts =>
      rw [sections_tags] at hs
      simpa using ih hs
    | row t =>
      rw [sections_row] at hs
      simpa using ih hs
    | header h t =>
      rw [sections_header, List.mem_cons] at hs
      intro u hu
      rcases hs with rfl | hs
      · obtain ⟨ts, hts, hut⟩ := mem_tagsIn.1 hu
        exact mem_tagsIn.2 ⟨ts, List.mem_append_left _ hts, hut⟩
      · obtain ⟨ts, hts, hut⟩ := mem_tagsIn.1 (ih hs hu)
        exact mem_tagsIn.2 ⟨ts, by simpa using .inr hts, hut⟩

/-- The visible marks are marks of lines of the file. -/
theorem exists_line_of_mem_visibleMarks {text : Text} {p : Placed} (hp : p ∈ visibleMarks text) :
    ∃ x ∈ fileLines text, Line.classify (fileLocale text) x = some (.mark p.mark) := by
  obtain ⟨⟨x, i⟩, hline, hx⟩ := List.mem_filterMap.1 hp
  simp only [visibleMark, Option.ite_none_right_eq_some, Option.map_eq_some_iff] at hx
  obtain ⟨-, m, hm, rfl⟩ := hx
  exact ⟨x, List.fst_mem_of_mem_zipIdx hline, Line.mark?_eq_some_iff.1 hm⟩

theorem written_of_mem_fileSections {text : Text} {s : Section} (hs : s ∈ fileSections text) :
    s.Written := by
  intro t ht
  obtain ⟨ts, hts, htts⟩ := mem_tagsIn.1 (own_subset_tagsIn hs ht)
  obtain ⟨p, hp, hmark⟩ := List.mem_map.1 hts
  obtain ⟨x, -, hx⟩ := exists_line_of_mem_visibleMarks hp
  rw [hmark] at hx
  exact Line.written_of_tags? (Line.tags?_of_classify hx) t htts

/-- Constructs are made of the sections of the file. -/
theorem mem_of_mem_constructs {ss : List Section} {c : Construct} (hc : c ∈ constructs ss) :
    c.head ∈ ss ∧ c.blocks ⊆ ss := by
  induction ss with
  | nil => simp [constructs] at hc
  | cons s ss ih =>
    by_cases hs : s.header = .scenario ∨ s.header = .outline
    · rw [constructs_construct hs, List.mem_cons] at hc
      rcases hc with rfl | hc
      · have hahead : blocksAhead ss ⊆ ss := (List.takeWhile_sublist _).subset
        exact ⟨List.mem_cons_self, List.subset_cons_of_subset s hahead⟩
      · obtain ⟨hhead, hblocks⟩ := ih hc
        exact ⟨List.mem_cons_of_mem s hhead, List.subset_cons_of_subset s hblocks⟩
    · rw [constructs, if_neg hs] at hc
      obtain ⟨hhead, hblocks⟩ := ih hc
      exact ⟨List.mem_cons_of_mem s hhead, List.subset_cons_of_subset s hblocks⟩

/-! ### Nodes -/

/-- Children and numbers are no part of what holds of a node below another. -/
theorem IsBelow.congr {inherited : TagSet} {n m : Node} (h : IsBelow inherited n)
    (hpath : m.path = n.path) (htags : m.tags = n.tags) : IsBelow inherited m where
  path := hpath.trans h.path
  tags := htags ▸ h.tags
  clean := htags ▸ h.clean

theorem isBelow_node {inherited : TagSet} (hi : inherited.Clean) (kind : Kind) (numbered : Bool)
    {s : Section} (hs : s.Written) : IsBelow inherited (s.node kind numbered inherited) where
  path := rfl
  tags := List.prefix_append ..
  clean := hi.inherit hs

/-- The block of a section has the shape below its outline. -/
theorem isBlock_block {outline : TagSet} (ho : outline.Clean) {s : Section} (hs : s.Written) :
    IsBlock outline (s.block outline) := by
  have hbelow := isBelow_node ho .examples false hs
  refine ⟨hbelow.congr rfl rfl, rfl, fun r hr => ?_⟩
  obtain ⟨c, hc, k, rfl⟩ := Node.mem_renumber hr
  obtain ⟨t, -, rfl⟩ := List.mem_map.1 hc
  exact ⟨⟨rfl, List.prefix_rfl, hbelow.clean⟩, rfl, rfl, rfl⟩

/-- The group of a construct has the shape below its feature. -/
theorem Construct.node?_shape {feature : TagSet} (hf : feature.Clean) {c : Construct}
    (hhead : c.head.Written) (hblocks : ∀ b ∈ c.blocks, b.Written) :
    ∀ n ∈ c.node? feature, IsScenario feature n ∨ IsOutline feature n := by
  intro n hn
  by_cases hb : c.blocks = []
  · simp only [node?, if_pos hb, Option.mem_def, Option.ite_none_right_eq_some,
      Option.some.injEq] at hn
    obtain ⟨-, rfl⟩ := hn
    exact .inl ⟨isBelow_node hf .scenario true hhead, rfl, rfl⟩
  · simp only [node?, if_neg hb, Option.mem_def, Option.some.injEq] at hn
    subst hn
    have hbelow := isBelow_node hf .outline true hhead
    refine .inr ⟨hbelow.congr rfl rfl, rfl, by simpa using hb, fun x hx => ?_⟩
    obtain ⟨b, hbmem, rfl⟩ := List.mem_map.1 hx
    exact isBlock_block hbelow.clean (hblocks b hbmem)

/-- An outline with some of its blocks left is an outline. -/
theorem IsOutline.filter_blocks {feature : TagSet} {o : Node} (ho : IsOutline feature o)
    {p : Node → Bool} (hne : o.children.filter p ≠ []) :
    IsOutline feature (o.withChildren (o.children.filter p)) :=
  ⟨ho.toIsBelow.congr rfl rfl, ho.kind, hne, fun b hb => ho.blocks b (List.mem_filter.1 hb).1⟩

/-- What is kept of a child has the shape of the child. -/
theorem Node.keep_shape (f : TagFilter) {feature : TagSet} {c : Node}
    (hc : IsScenario feature c ∨ IsOutline feature c) :
    ∀ n ∈ c.keep f, IsScenario feature n ∨ IsOutline feature n := by
  intro n hn
  rcases hc with hc | hc
  · simp only [keep_of_scenario f hc.kind, Option.mem_def, Option.ite_none_right_eq_some,
      Option.some.injEq] at hn
    obtain ⟨-, rfl⟩ := hn
    exact .inl hc
  · simp only [keep_of_outline f hc.kind, Option.mem_def, Option.ite_none_left_eq_some,
      Option.some.injEq] at hn
    obtain ⟨hkept, rfl⟩ := hn
    exact .inr (hc.filter_blocks hkept)

/-- A number is no part of the shape. -/
theorem Node.number_shape {feature : TagSet} {c : Node}
    (hc : IsScenario feature c ∨ IsOutline feature c) (k : Option Nat) :
    IsScenario feature { c with number := k } ∨ IsOutline feature { c with number := k } := by
  rcases hc with hc | hc
  · exact .inl ⟨hc.toIsBelow.congr rfl rfl, hc.kind, hc.childless⟩
  · exact .inr ⟨hc.toIsBelow.congr rfl rfl, hc.kind, hc.hasBlocks, hc.blocks⟩

/-- CORRECT (shape): every tree that is read has the shape, whatever the file, path and filter. -/
theorem isFeature_of_parse {f : TagFilter} {path : Option Text} {text : Text} {n : Node}
    (h : (parse f path text).result = .ok n) : IsFeature path n := by
  obtain ⟨s, ss, hss, rfl, -⟩ := parse_eq_fates h
  have hwritten : ∀ x ∈ s :: ss, x.Written := fun x hx => written_of_mem_fileSections (hss ▸ hx)
  have hroot : (s.feature path).tags.Clean :=
    TagSet.clean_empty.inherit (hwritten s List.mem_cons_self)
  refine ⟨rfl, rfl, hroot, fun n hn => ?_⟩
  obtain ⟨m, hm, k, rfl⟩ := Node.mem_renumber hn
  obtain ⟨fate, hfate, hnode⟩ := List.mem_filterMap.1 hm
  obtain ⟨c, hc, rfl⟩ := List.mem_map.1 hfate
  rw [Construct.fate_node, Option.bind_eq_some_iff] at hnode
  obtain ⟨g, hg, hkeep⟩ := hnode
  obtain ⟨hhead, hblocks⟩ := mem_of_mem_constructs hc
  have hgroup := Construct.node?_shape hroot (hwritten _ (List.mem_cons_of_mem s hhead))
    (fun b hb => hwritten b (List.mem_cons_of_mem s (hblocks hb))) g hg
  exact Node.number_shape (Node.keep_shape f hgroup m hkeep) k

/-- A file with a scenario that becomes an outline and one with a tag of its own. -/
def promotedFile : Text :=
  "@a\nFeature: f\n@b @a\nScenario: s\nExamples: e\n|x|\n@c\nScenario: t\n".toList

theorem isFeature_of_parse_promotedFile :
    ∃ n, (parse (TagFilter.unfiltered.forbid ["@c".toList]) (some ['p']) promotedFile).result =
        .ok n ∧ n.childTexts = ["Scenario: s".toList] ∧ IsFeature (some ['p']) n := by
  have hread :
      ∃ n, (parse (TagFilter.unfiltered.forbid ["@c".toList]) (some ['p']) promotedFile).result =
        .ok n ∧ n.childTexts = ["Scenario: s".toList] := ⟨_, rfl, rfl⟩
  obtain ⟨n, hn, htexts⟩ := hread
  exact ⟨n, hn, htexts, isFeature_of_parse hn⟩

end GherkinIndex
