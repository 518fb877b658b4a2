import Mathlib.Data.List.TakeWhile
import GherkinIndex.Proofs.Feature.Extension

/-! Nothing is lost silently.

    A header that is read leaves one trace: the node it became, or the event that tells why it became
    none. Read in order, the headers of a file use up its nodes and its events one by one, and
    nothing is left over on either side.

        headers    scenario s   scenario t   outline o            scenario u
        children                scenario t                        outline u
        log        refused s                 dropped o

    The same holds of the examples headers with the blocks of the tree, wherever they are in it. -/

namespace GherkinIndex

/-! ### Traces -/

/-- The kind of node that a header becomes; a scenario with examples becomes an outline. -/
inductive Becomes : Header → Kind → Prop
  | scenario : Becomes .scenario .scenario
  | templated : Becomes .scenario .outline
  | outline : Becomes .outline .outline
  | examples : Becomes .examples .examples

/-- The event of a header that becomes no node; `shown` is its text as a node would have it. -/
inductive LostAs (shown : Text) : Header → Event → Prop
  | scenarioRefused : LostAs shown .scenario (.filteredOut .scenario shown)
  | templateDropped : LostAs shown .scenario (.outlineDropped shown)
  | outlineDropped : LostAs shown .outline (.outlineDropped shown)
  | examplesRefused : LostAs shown .examples (.filteredOut .examples shown)

/-- Each header in turn takes the next node or the next event, and all are taken in the end. -/
inductive AccountedFor : List (Header × Text) → List Node → List Event → Prop
  | nil : AccountedFor [] [] []
  | node {h : Header} {t : Text} {n : Node} {hs ns es} : Becomes h n.kind →
      n.text = Text.escapeApostrophes t → AccountedFor hs ns es →
      AccountedFor ((h, t) :: hs) (n :: ns) es
  | event {h : Header} {t : Text} {e : Event} {hs ns es} :
      LostAs (Text.escapeApostrophes t) h e → AccountedFor hs ns es →
      AccountedFor ((h, t) :: hs) ns (e :: es)

theorem AccountedFor.append {hs hs' : List (Header × Text)} {ns ns' : List Node}
    {es es' : List Event} (h : AccountedFor hs ns es) (h' : AccountedFor hs' ns' es') :
    AccountedFor (hs ++ hs') (ns ++ ns') (es ++ es') := by
  induction h with
  | nil => exact h'
  | node hkind htext _ ih => exact .node hkind htext ih
  | event hlost _ ih => exact .event hlost ih

/-- Nothing but kinds and texts counts. -/
theorem AccountedFor.congr {hs : List (Header × Text)} {ns : List Node} {es : List Event}
    (h : AccountedFor hs ns es) {ms : List Node}
    (hms : ms.map (fun n => (n.kind, n.text)) = ns.map fun n => (n.kind, n.text)) :
    AccountedFor hs ms es := by
  induction h generalizing ms with
  | nil =>
    obtain rfl : ms = [] := by simpa using hms
    exact .nil
  | node hkind htext _ ih =>
    obtain ⟨m, ms, rfl, hm, hrest⟩ := List.map_eq_cons_iff.1 hms
    obtain ⟨hmkind, hmtext⟩ := Prod.mk.inj hm
    exact .node (hmkind ▸ hkind) (hmtext.trans htext) (ih hrest)
  | event hlost _ ih => exact .event hlost (ih hms)

/-- An event that tells what became of a scenario or outline header. -/
def Event.endsConstruct : Event → Bool
  | .filteredOut .scenario _ => true
  | .outlineDropped _ => true
  | _ => false

/-- An event that tells what became of an examples header. -/
def Event.endsExamples : Event → Bool
  | .filteredOut .examples _ => true
  | _ => false

/-! ### Headers -/

def Mark.title? : Mark → Option (Header × Text)
  | .header h t => some (h, t)
  | _ => none

/-- The visible headers of a file with their texts. -/
def visibleTitles (text : Text) : List (Header × Text) :=
  (visibleMarks text).filterMap (·.mark.title?)

def Section.title (s : Section) : Header × Text := (s.header, s.text)

/-- The headers of scenarios and outlines. -/
def constructTitles (hs : List (Header × Text)) : List (Header × Text) :=
  hs.filter fun h => h.1 = .scenario ∨ h.1 = .outline

def examplesTitles (hs : List (Header × Text)) : List (Header × Text) :=
  hs.filter (·.1 = .examples)

/-- Every header opens a section. -/
theorem titles_sections (before ms : List Mark) :
    (sections before ms).map Section.title = ms.filterMap Mark.title? := by
  induction ms generalizing before with
  | nil => rfl
  | cons m ms ih =>
    cases m with
    | tags ts => rw [sections_tags, ih, List.filterMap_cons_none rfl]
    | row t => rw [sections_row, ih, List.filterMap_cons_none rfl]
    | header h t =>
      rw [sections_header, List.map_cons, ih]
      rfl

theorem titles_fileSections (text : Text) :
    (fileSections text).map Section.title = visibleTitles text := by
  rw [fileSections, titles_sections, List.filterMap_map, visibleTitles]
  rfl

/-- Every scenario or outline section heads a construct. -/
theorem titles_heads (ss : List Section) :
    (constructs ss).map (·.head.title) = constructTitles (ss.map Section.title) := by
  induction ss with
  | nil => rfl
  | cons s ss ih =>
    by_cases hs : s.header = .scenario ∨ s.header = .outline
    · rw [constructs_construct hs, List.map_cons, ih]
      simp [constructTitles, Section.title, hs]
    · rw [constructs, if_neg hs, ih]
      simp [constructTitles, Section.title, hs]

/-- Behind the feature header every examples section belongs to the construct before it, those at
    the very start apart. -/
theorem titles_blocks {ss : List Section} (hone : ∀ s ∈ ss, s.header ≠ .feature) :
    (blocksAhead ss ++ (constructs ss).flatMap (·.blocks)).map Section.title =
      examplesTitles (ss.map Section.title) := by
  induction ss with
  | nil => rfl
  | cons s ss ih =>
    have ih := ih fun x hx => hone x (List.mem_cons_of_mem s hx)
    by_cases hs : s.header = .examples
    · rw [blocksAhead_examples hs, constructs_examples hs, List.cons_append, List.map_cons, ih]
      simp [examplesTitles, Section.title, hs]
    · have hcon : s.header = .scenario ∨ s.header = .outline := by
        have hfeature := hone s List.mem_cons_self
        cases hk : s.header <;> simp_all
      rw [blocksAhead_construct hcon, constructs_construct hcon, List.flatMap_cons,
        List.nil_append, ih]
      simp [examplesTitles, Section.title, hs]

/-- A construct has the header of a scenario or outline, and its blocks have examples headers. -/
structure Construct.Headed (c : Construct) : Prop where
  head : c.head.header = .scenario ∨ c.head.header = .outline
  blocks : ∀ b ∈ c.blocks, b.header = .examples

theorem headed_of_mem_constructs {ss : List Section} {c : Construct} (hc : c ∈ constructs ss) :
    c.Headed := by
  induction ss with
  | nil => simp [constructs] at hc
  | cons s ss ih =>
    by_cases hs : s.header = .scenario ∨ s.header = .outline
    · rw [constructs_construct hs, List.mem_cons] at hc
      rcases hc with rfl | hc
      · refine ⟨hs, fun b hb => ?_⟩
        simpa [Section.isExamples] using List.mem_takeWhile_imp hb
      · exact ih hc
    · rw [constructs, if_neg hs] at hc
      exact ih hc

/-! ### Fates -/

section
variable (f : TagFilter)

/-- Every block is kept or refused. -/
theorem blocks_accounted_for (outline : TagSet) {ss : List Section}
    (hss : ∀ s ∈ ss, s.header = .examples) :
    AccountedFor (ss.map Section.title)
      ((ss.map (·.block outline)).filter (f.accepts ·.tags))
      (((ss.map (·.block outline)).filter (!f.accepts ·.tags)).map
        fun b => .filteredOut b.kind b.text) := by
  induction ss with
  | nil => exact .nil
  | cons s ss ih =>
    have ih := ih fun x hx => hss x (List.mem_cons_of_mem s hx)
    have hs : s.title = (.examples, s.text) := by rw [Section.title, hss s List.mem_cons_self]
    rw [List.map_cons, List.map_cons, hs]
    have hlost : LostAs (Text.escapeApostrophes s.text) .examples
        (.filteredOut (s.block outline).kind (s.block outline).text) := .examplesRefused
    by_cases ha : f.accepts (s.block outline).tags = true
    · simpa [ha] using AccountedFor.node .examples rfl ih
    · simpa [ha] using AccountedFor.event hlost ih

/-- Refused blocks are told of as such. -/
theorem filter_refused {bs : List Node} (hbs : ∀ b ∈ bs, b.kind = .examples) :
    let log : List Event := bs.map fun b => .filteredOut b.kind b.text
    log.filter Event.endsConstruct = [] ∧ log.filter Event.endsExamples = log := by
  intro log
  have hlog : ∀ e ∈ log, e.endsConstruct = false ∧ e.endsExamples = true := by
    intro e he
    obtain ⟨b, hb, rfl⟩ := List.mem_map.1 he
    rw [hbs b hb]
    exact ⟨rfl, rfl⟩
  exact ⟨List.filter_eq_nil_iff.2 fun e he => by simp [(hlog e he).1],
    List.filter_eq_self.2 fun e he => (hlog e he).2⟩

/-- An outline is kept or dropped, and its blocks are kept or refused. A dropped one takes no
    accepted block with it. -/
theorem outlineFate_accounted_for {o : Node} (hk : o.kind = .outline) (hc : o.children = [])
    {h : Header} (hh : h = .scenario ∨ h = .outline) {t : Text}
    (ht : o.text = Text.escapeApostrophes t) {ss : List Section}
    (hss : ∀ s ∈ ss, s.header = .examples) :
    let fate := outlineFate f o (ss.map (·.block o.tags))
    AccountedFor [(h, t)] fate.node.toList (fate.log.filter Event.endsConstruct) ∧
      AccountedFor (ss.map Section.title) (fate.node.toList.flatMap (·.children))
        (fate.log.filter Event.endsExamples) := by
  have hblocks := blocks_accounted_for f o.tags hss
  have hrefused : ∀ b ∈ (ss.map (·.block o.tags)).filter (!f.accepts ·.tags),
      b.kind = .examples := by
    intro b hb
    obtain ⟨s, -, rfl⟩ := List.mem_map.1 (List.mem_filter.1 hb).1
    rfl
  obtain ⟨hnone, hself⟩ := filter_refused hrefused
  have hbecomes : Becomes h .outline := by
    rcases hh with rfl | rfl
    · exact .templated
    · exact .outline
  have hlost : LostAs (Text.escapeApostrophes t) h (.outlineDropped o.text) := by
    rw [ht]
    rcases hh with rfl | rfl
    · exact .templateDropped
    · exact .outlineDropped
  simp only [outlineFate, hc, List.nil_append]
  by_cases hkept : (ss.map (·.block o.tags)).filter (f.accepts ·.tags) = []
  · rw [hkept] at hblocks
    rw [if_pos hkept]
    simp only [List.filter_append, hnone, hself]
    exact ⟨.event hlost .nil, by simpa [Event.endsExamples] using hblocks⟩
  · rw [if_neg hkept]
    simp only [hnone, hself]
    exact ⟨.node (hk ▸ hbecomes) ht .nil, by simpa using hblocks⟩

/-- A construct is accounted for, and so are its blocks. -/
theorem Construct.fate_accounted_for (feature : TagSet) {c : Construct} (hc : c.Headed) :
    AccountedFor [c.head.title] (c.fate f feature).node.toList
        ((c.fate f feature).log.filter Event.endsConstruct) ∧
      AccountedFor (c.blocks.map Section.title) ((c.fate f feature).node.toList.flatMap (·.children))
        ((c.fate f feature).log.filter Event.endsExamples) := by
  obtain ⟨s, blocks⟩ := c
  obtain ⟨hhead, hblocks⟩ := hc
  rcases hhead with hs | hs
  · have hheld : s.held feature = .scenario (s.node .scenario true feature) := if_pos hs
    have htitle : s.title = (.scenario, s.text) := by rw [Section.title, hs]
    rw [fate, hheld, htitle]
    cases blocks with
    | nil =>
      rw [Held.fate]
      by_cases ha : f.accepts (s.node .scenario true feature).tags = true
      · rw [if_pos ha]
        exact ⟨.node .scenario rfl .nil, .nil⟩
      · rw [if_neg ha]
        exact ⟨.event .scenarioRefused .nil, .nil⟩
    | cons b bs => exact outlineFate_accounted_for f rfl rfl (.inl rfl) rfl hblocks
  · have hother : s.header ≠ .scenario := fun h => by simp [h] at hs
    have hheld : s.held feature = .outline (s.node .outline true feature) none := if_neg hother
    rw [fate, hheld]
    exact outlineFate_accounted_for f rfl rfl (.inr hs) rfl hblocks

/-- Constructs are accounted for one after the other. -/
theorem fates_accounted_for (feature : TagSet) {cs : List Construct} (hcs : ∀ c ∈ cs, c.Headed) :
    AccountedFor (cs.map (·.head.title)) ((cs.map (·.fate f feature)).filterMap (·.node))
        (((cs.map (·.fate f feature)).flatMap (·.log)).filter Event.endsConstruct) ∧
      AccountedFor ((cs.flatMap (·.blocks)).map Section.title)
        (((cs.map (·.fate f feature)).filterMap (·.node)).flatMap (·.children))
        (((cs.map (·.fate f feature)).flatMap (·.log)).filter Event.endsExamples) := by
  induction cs with
  | nil => exact ⟨.nil, .nil⟩
  | cons c cs ih =>
    obtain ⟨hheads, hblocks⟩ := ih fun x hx => hcs x (List.mem_cons_of_mem c hx)
    obtain ⟨hhead, hown⟩ := Construct.fate_accounted_for f feature (hcs c List.mem_cons_self)
    have hnodes : ((c :: cs).map (·.fate f feature)).filterMap (·.node) =
        (c.fate f feature).node.toList ++ (cs.map (·.fate f feature)).filterMap (·.node) := by
      cases hn : (c.fate f feature).node <;> simp [hn]
    have hlogs (p : Event → Bool) : (((c :: cs).map (·.fate f feature)).flatMap (·.log)).filter p =
        (c.fate f feature).log.filter p ++
          ((cs.map (·.fate f feature)).flatMap (·.log)).filter p := by
      rw [List.map_cons, List.flatMap_cons, List.filter_append]
    rw [hnodes, hlogs, hlogs, List.flatMap_append, List.flatMap_cons, List.map_append]
    exact ⟨hhead.append hheads, hown.append hblocks⟩

end

/-! ### Trees -/

mutual

/-- A node and everything below it, in the order of the file. -/
def Node.all : Node → List Node
  | n@⟨_, _, _, _, _, _, children⟩ => n :: Node.allOf children

def Node.allOf : List Node → List Node
  | [] => []
  | n :: ns => n.all ++ Node.allOf ns

end

theorem Node.allOf_eq (ns : List Node) : Node.allOf ns = ns.flatMap Node.all := by
  induction ns with
  | nil => rfl
  | cons n ns ih => rw [Node.allOf, ih, List.flatMap_cons]

theorem Node.all_eq (n : Node) : n.all = n :: n.children.flatMap Node.all := by
  cases n
  rw [Node.all, Node.allOf_eq]

/-- The blocks among some nodes and everything below them. -/
def examplesIn (ns : List Node) : List Node := ns.filter (·.kind = .examples)

theorem examplesIn_flatMap {ns : List Node} {g : Node → List Node}
    (h : ∀ n ∈ ns, examplesIn n.all = g n) : examplesIn (ns.flatMap Node.all) = ns.flatMap g := by
  induction ns with
  | nil => rfl
  | cons n ns ih =>
    have ih := ih fun m hm => h m (List.mem_cons_of_mem n hm)
    rw [List.flatMap_cons, List.flatMap_cons, ← h n List.mem_cons_self, ← ih, examplesIn,
      List.filter_append]
    rfl

/-- The rows of a block are below no other block. -/
theorem Section.examplesIn_block (s : Section) (outline : TagSet) :
    examplesIn (s.block outline).all = [s.block outline] := by
  have hrows : ∀ r ∈ (s.block outline).children, examplesIn r.all = [] := by
    intro r hr
    obtain ⟨c, hc, k, rfl⟩ := Node.mem_renumber hr
    obtain ⟨t, -, rfl⟩ := List.mem_map.1 hc
    rfl
  rw [Node.all_eq, examplesIn, List.filter_cons_of_pos rfl, ← examplesIn, examplesIn_flatMap hrows]
  simp

/-- No block itself, and each child is a block with no other one below it. -/
structure HoldsBlocks (n : Node) : Prop where
  kind : n.kind ≠ .examples
  blocks : ∀ b ∈ n.children, examplesIn b.all = [b]

theorem HoldsBlocks.examplesIn_all {n : Node} (h : HoldsBlocks n) :
    examplesIn n.all = n.children := by
  rw [Node.all_eq, examplesIn, List.filter_cons_of_neg (by simp [h.kind]), ← examplesIn,
    examplesIn_flatMap h.blocks]
  simp

/-- A construct that is kept holds blocks, if it has any children. -/
theorem Construct.fate_holdsBlocks (f : TagFilter) (feature : TagSet) (c : Construct) :
    ∀ n ∈ (c.fate f feature).node, HoldsBlocks n := by
  intro n hn
  rw [fate_node, Option.mem_def, Option.bind_eq_some_iff] at hn
  obtain ⟨g, hg, hkeep⟩ := hn
  by_cases hb : c.blocks = []
  · simp only [node?, if_pos hb, Option.ite_none_right_eq_some, Option.some.injEq] at hg
    obtain ⟨-, rfl⟩ := hg
    have hkind : (c.head.node .scenario true feature).kind = .scenario := rfl
    rw [Node.keep_of_scenario f hkind, Option.ite_none_right_eq_some, Option.some.injEq] at hkeep
    obtain ⟨-, rfl⟩ := hkeep
    exact ⟨by simp [hkind], by simp [Section.node]⟩
  · simp only [node?, if_neg hb, Option.some.injEq] at hg
    have hkind : g.kind = .outline := by
      rw [← hg]
      rfl
    rw [Node.keep_of_outline f hkind, Option.ite_none_left_eq_some, Option.some.injEq] at hkeep
    obtain ⟨-, rfl⟩ := hkeep
    subst hg
    refine ⟨Kind.noConfusion, fun b hb => ?_⟩
    obtain ⟨x, -, rfl⟩ := List.mem_map.1 (List.mem_filter.1 hb).1
    exact x.examplesIn_block _

/-- The blocks of a tree are the children of its constructs. -/
theorem examplesIn_tree {n : Node} (hk : n.kind = .feature) (h : ∀ c ∈ n.children, HoldsBlocks c) :
    examplesIn n.all = n.children.flatMap (·.children) := by
  rw [Node.all_eq, examplesIn, List.filter_cons_of_neg (by simp [hk]), ← examplesIn]
  exact examplesIn_flatMap fun c hc => (h c hc).examplesIn_all

/-! ### Files -/

/-- Choosing the keywords tells nothing about headers. -/
theorem Locale.filter_choose {p : Event → Bool}
    (hp : ∀ path cause, p (.englishFallback path cause) = false) (path line : Option Text) :
    (Locale.choose path line).2.filter p = [] := by
  unfold Locale.choose
  cases Locale.select line with
  | ok l => rfl
  | error e => simp [hp]

theorem headers_visibleTitles (text : Text) :
    (visibleTitles text).map (·.1) = (visibleHeadings text).map (·.header) := by
  rw [visibleTitles, visibleHeadings, List.map_filterMap, List.map_filterMap]
  refine List.filterMap_congr fun p _ => ?_
  obtain ⟨line, mark⟩ := p
  cases mark <;> rfl

/-- In a file that has a tree the first section is the feature, and the others start with a
    construct and have no further feature among them. -/
theorem sections_of_wellPlaced {text : Text} {s : Section} {ss : List Section}
    (h : WellPlaced ((visibleHeadings text).map (·.header))) (hss : fileSections text = s :: ss) :
    s.header = .feature ∧ (∀ x ∈ ss, x.header ≠ .feature) ∧ blocksAhead ss = [] := by
  obtain ⟨rest, hrest, hone, hhead⟩ := h
  rw [← headers_visibleTitles, ← titles_fileSections, hss, List.map_map, List.map_cons] at hrest
  obtain ⟨hfirst, rfl⟩ := List.cons.inj hrest
  refine ⟨hfirst, fun x hx hfeature => hone (List.mem_map.2 ⟨x, hx, hfeature⟩), ?_⟩
  cases ss with
  | nil => rfl
  | cons x xs =>
    refine blocksAhead_other (fun hex => hhead ?_) xs
    simp [Section.title, hex]

/-- CORRECT (accounting): in a file that has a tree, the scenario and outline headers are accounted
    for one by one by the children of the feature and the events of refused scenarios and dropped
    outlines, and the examples headers by the blocks of the tree and the events of refused blocks,
    with nothing left over. -/
theorem headers_accounted_for {f : TagFilter} {path : Option Text} {text : Text} {n : Node}
    (h : (parse f path text).result = .ok n) :
    AccountedFor (constructTitles (visibleTitles text)) n.children
        ((parse f path text).log.filter Event.endsConstruct) ∧
      AccountedFor (examplesTitles (visibleTitles text)) (examplesIn n.all)
        ((parse f path text).log.filter Event.endsExamples) := by
  have hplaced := result_ok_iff.1 ⟨n, h⟩
  obtain ⟨s, ss, hss, hn, hlog⟩ := parse_eq_fates h
  obtain ⟨hfirst, hone, hahead⟩ := sections_of_wellPlaced hplaced hss
  have htitles : visibleTitles text = s.title :: ss.map Section.title := by
    rw [← titles_fileSections, hss, List.map_cons]
  have hconstructs : constructTitles (visibleTitles text) = (constructs ss).map (·.head.title) := by
    rw [titles_heads, htitles]
    simp [constructTitles, Section.title, hfirst]
  have hexamples : examplesTitles (visibleTitles text) =
      ((constructs ss).flatMap (·.blocks)).map Section.title := by
    have hblocks := titles_blocks hone
    rw [hahead, List.nil_append] at hblocks
    rw [hblocks, htitles]
    simp [examplesTitles, Section.title, hfirst]
  have hfilter {p : Event → Bool} (hp : ∀ path cause, p (.englishFallback path cause) = false)
      (hp' : ∀ path, p (.docStringLeftOpen path) = false) :
      (parse f path text).log.filter p =
        ((fates f (s :: ss)).flatMap (·.log)).filter p := by
    rw [hlog, List.filter_append, List.filter_append, Locale.filter_choose hp]
    split <;> simp [hp']
  have hheaded : ∀ c ∈ constructs ss, c.Headed := fun c hc => headed_of_mem_constructs hc
  have hholds : ∀ c ∈ n.children, HoldsBlocks c := by
    rw [hn]
    intro c hc
    obtain ⟨m, hm, k, rfl⟩ := Node.mem_renumber hc
    obtain ⟨fate, hfate, hnode⟩ := List.mem_filterMap.1 hm
    obtain ⟨x, -, rfl⟩ := List.mem_map.1 hfate
    have hm := x.fate_holdsBlocks f _ m hnode
    exact ⟨hm.kind, hm.blocks⟩
  have hroot : n.kind = .feature := by rw [hn]; rfl
  obtain ⟨hheads, hblocks⟩ := fates_accounted_for f (s.feature none).tags hheaded
  rw [examplesIn_tree hroot hholds, hconstructs, hexamples, hfilter (fun _ _ => rfl)
    (fun _ => rfl), hfilter (fun _ _ => rfl) (fun _ => rfl), hn]
  refine ⟨hheads.congr (Node.map_renumber (fun _ => rfl) _), ?_⟩
  rw [Node.children_withChildren, Node.flatMap_children_renumber]
  exact hblocks

/-- A file with a refused scenario, a dropped outline and a scenario that loses one of two blocks. -/
def lossyFile : Text :=
  ("Feature: f\nScenario: s\n@w\nScenario: t\nScenario Outline: o\n@w\nExamples: e\n" ++
    "Scenario: u\n@w\nExamples: x\nExamples: y\n").toList

theorem fileLines_lossyFile : fileLines lossyFile =
    ["Feature: f", "Scenario: s", "@w", "Scenario: t", "Scenario Outline: o", "@w", "Examples: e",
      "Scenario: u", "@w", "Examples: x", "Examples: y"].map String.toList := by decide

/-- It ends outside doc strings. -/
theorem openOn_lossyFile :
    openOn (fileLines lossyFile) (fileLines lossyFile).length = none := by
  rw [fileLines_lossyFile]
  decide

theorem fileSections_lossyFile : fileSections lossyFile =
    [⟨.feature, "Feature: f".toList, [], []⟩,
      ⟨.scenario, "Scenario: s".toList, [], []⟩,
      ⟨.scenario, "Scenario: t".toList, ["@w".toList], []⟩,
      ⟨.outline, "Scenario Outline: o".toList, [], []⟩,
      ⟨.examples, "Examples: e".toList, ["@w".toList], []⟩,
      ⟨.scenario, "Scenario: u".toList, [], []⟩,
      ⟨.examples, "Examples: x".toList, ["@w".toList], []⟩,
      ⟨.examples, "Examples: y".toList, [], []⟩] := by cbv

theorem headers_of_lossyFile_accounted_for :
    let p := parse (TagFilter.unfiltered.forbid ["@w".toList]) none lossyFile
    ∃ n, p.result = .ok n ∧
      n.children.map (fun c => (c.kind, c.text)) =
        [(.scenario, "Scenario: s".toList), (.outline, "Scenario: u".toList)] ∧
      p.log = [.filteredOut .scenario "Scenario: t".toList,
        .filteredOut .examples "Examples: e".toList,
        .outlineDropped "Scenario Outline: o".toList, .scenarioAsOutline "Scenario: u".toList,
        .filteredOut .examples "Examples: x".toList] ∧
      AccountedFor (constructTitles (visibleTitles lossyFile)) n.children
        (p.log.filter Event.endsConstruct) ∧
      AccountedFor (examplesTitles (visibleTitles lossyFile)) (examplesIn n.all)
        (p.log.filter Event.endsExamples) := by
  intro p
  have hplaced : WellPlaced ((visibleHeadings lossyFile).map (·.header)) := by
    rw [← headers_visibleTitles, ← titles_fileSections, fileSections_lossyFile]
    exact ⟨_, rfl, by decide, by decide⟩
  obtain ⟨n, hn⟩ : ∃ n, p.result = .ok n := result_ok_iff.2 hplaced
  -- tree and events are read off the sections
  obtain ⟨s, ss, hss, htree, hlog⟩ := parse_eq_fates hn
  obtain ⟨rfl, rfl⟩ := List.cons.inj (fileSections_lossyFile.symm.trans hss)
  rw [openOn_lossyFile, fileLines_lossyFile] at hlog
  exact ⟨n, hn, by rw [htree]; rfl, hlog.trans rfl, headers_accounted_for hn⟩

end GherkinIndex
