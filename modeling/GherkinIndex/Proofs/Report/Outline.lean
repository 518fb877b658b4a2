import Mathlib.Data.List.Forall2
import Mathlib.Data.List.Nodup
import GherkinIndex.Proofs.Feature.Titles
import GherkinIndex.Proofs.Text.Digits
import GherkinIndex.Report.Render

/-! What the outline of a report tells.

    Each node has a line of its own, and the indent of a line is the depth of its node: texts of nodes
    do not start with a blank. The tags of a node start with those of the node above it, so the
    brackets on the way down to a node show its tags, each of them once.

        Feature: cart [@shop]                   @shop
          Scenario Outline: pay [@slow]         @shop @slow
            Examples: cards [@wip @card]        @shop @slow @wip @card
              |visa|                            @shop @slow @wip @card

    The lines below a node are the ones behind its own that are indented deeper, up to the first that
    is not. That makes two outlines with the same lines outlines of trees of the same shape. -/

namespace GherkinIndex

/-- Trees that differ in what stands in their nodes alone. -/
inductive Node.SameShape : Node → Node → Prop
  | intro {n m : Node} (children : List.Forall₂ SameShape n.children m.children) : SameShape n m

/-! ### Tags of children -/

/-- Each child has the tags of its parent before others, and no tag stands twice. -/
structure Node.Inherits (n : Node) : Prop where
  clean : n.tags.Clean
  children : ∀ c ∈ n.children, n.tags.toList <+: c.tags.toList

theorem Node.inherits_of_childless {n : Node} (hclean : n.tags.Clean) (hn : n.children = []) :
    n.Each Node.Inherits := by
  have hnone : ∀ c, c ∉ n.children := by simp [hn]
  exact .intro ⟨hclean, fun c hc => absurd hc (hnone c)⟩ fun c hc => absurd hc (hnone c)

theorem IsBlock.inherits {outline : TagSet} {n : Node} (h : IsBlock outline n) :
    n.Each Node.Inherits :=
  .intro ⟨h.clean, fun r hr => (h.rows r hr).tags⟩ fun r hr =>
    Node.inherits_of_childless (h.rows r hr).clean (h.rows r hr).childless

theorem IsOutline.inherits {feature : TagSet} {n : Node} (h : IsOutline feature n) :
    n.Each Node.Inherits :=
  .intro ⟨h.clean, fun b hb => (h.blocks b hb).tags⟩ fun b hb => (h.blocks b hb).inherits

theorem inherits_of_parse {f : TagFilter} {path : Option Text} {text : Text} {n : Node}
    (h : (parse f path text).result = .ok n) : n.Each Node.Inherits := by
  refine .intro ⟨(groups_shape h).1, fun c hc => ?_⟩ fun c hc => ?_
  · rcases shape_of_child h hc with hs | ho
    · exact hs.tags
    · exact ho.tags
  · rcases shape_of_child h hc with hs | ho
    · exact Node.inherits_of_childless hs.clean hs.childless
    · exact ho.inherits

/-! ### Texts of nodes -/

theorem Text.feed_not_mem_trim {x : Text} (hx : '\n' ∉ x) : '\n' ∉ trim x := by
  obtain ⟨w, -, hstart⟩ := exists_append_trimStart x
  obtain ⟨w', -, hend⟩ := exists_append_trimEnd (trimStart x)
  rw [hstart, hend, ← trim] at hx
  intro hmem
  exact hx (List.mem_append_right w (List.mem_append_left w' hmem))

theorem Text.feed_not_mem_escapeApostrophes {t : Text} (ht : '\n' ∉ t) :
    '\n' ∉ escapeApostrophes t := by
  rw [escapeApostrophes, List.mem_flatMap]
  rintro ⟨c, hc, hmem⟩
  by_cases hquote : c = '\''
  · rw [if_pos hquote] at hmem
    exact absurd hmem (by decide)
  · rw [if_neg hquote] at hmem
    exact ht (List.mem_singleton.1 hmem ▸ hc)

theorem Text.feed_not_mem_join {ts : List Text} (hts : ∀ t ∈ ts, '\n' ∉ t) :
    '\n' ∉ join [' '] ts := by
  induction ts with
  | nil => exact List.not_mem_nil
  | cons t ts ih =>
    rw [List.forall_mem_cons] at hts
    cases ts with
    | nil => simpa [join] using hts.1
    | cons u ts =>
      rw [join_cons_cons]
      simp [hts.1, ih hts.2]

/-- A node shows one line that does not start with a blank. -/
theorem Shows.text {text : Text} {n : Node} (h : Shows text n) :
    '\n' ∉ n.text ∧ ∃ c rest, n.text = c :: rest ∧ Text.isBlank c = false := by
  obtain ⟨t, ⟨x, hx, rfl, hne⟩, hshown⟩ := h
  rw [hshown]
  refine ⟨Text.feed_not_mem_escapeApostrophes (Text.feed_not_mem_trim (Text.feed_not_mem_line hx)),
    ?_⟩
  obtain ⟨c, rest, hcons⟩ := List.exists_cons_of_ne_nil hne
  have hc : Text.isBlank c = false := by
    apply Text.not_blank_of_head?_trimStart
    rw [← Text.head?_trim, hcons]
    rfl
  rw [hcons, Text.escapeApostrophes_cons]
  by_cases hquote : c = '\''
  · rw [if_pos hquote]
    exact ⟨'\\', _, rfl, rfl⟩
  · rw [if_neg hquote]
    exact ⟨c, _, rfl, hc⟩

/-- What the outline of a report needs of a node. -/
structure Node.Presentable (n : Node) : Prop extends n.Inherits where
  oneLine : '\n' ∉ n.text
  visible : ∃ c rest, n.text = c :: rest ∧ Text.isBlank c = false

theorem presentable_of_parse {f : TagFilter} {path : Option Text} {text : Text} {n : Node}
    (h : (parse f path text).result = .ok n) : n.Each Node.Presentable := by
  have hboth := (shows_of_parse h).and (inherits_of_parse h)
  exact hboth.imp fun m ⟨hshows, hinherits⟩ => ⟨hinherits, hshows.text.1, hshows.text.2⟩

namespace Report

/-! ### Outlines -/

/-- The end of a line that shows tags: nothing for none of them, and otherwise brackets in which they
    are the words. -/
inductive ShowsTags : List Tag → Text → Prop
  | nothing : ShowsTags [] []
  | brackets {shown : List Tag} {inside : Text} (hne : shown ≠ [])
      (hwords : Text.words inside = shown) : ShowsTags shown (" [".toList ++ inside ++ [']'])

/-- The line of a node at a depth, with the tags that it shows. -/
structure LineOf (depth : Nat) (shown : List Tag) (n : Node) (line : Text) : Prop where
  oneLine : '\n' ∉ line
  indented : ∃ c rest, line = List.replicate (2 * depth) ' ' ++ c :: rest ∧ Text.isBlank c = false
  shows : ∃ rest, line = List.replicate (2 * depth) ' ' ++ n.text ++ numberSuffix n.number ++ rest ∧
    ShowsTags shown rest

/-- The lines of trees whose roots stand at a depth, below nodes that show the tags `above`: each node
    has one line, before those of what is below it, and the tags that are shown down to it are its
    tags. -/
inductive Outlines : Nat → List Tag → List Node → List Text → Prop
  | nil {depth : Nat} {above : List Tag} : Outlines depth above [] []
  | cons {depth : Nat} {above shown : List Tag} {n : Node} {ns : List Node} {line : Text}
      {below after : List Text} (here : LineOf depth shown n line)
      (whole : above ++ shown = n.tags.toList) (once : n.tags.toList.Nodup)
      (children : Outlines (depth + 1) (above ++ shown) n.children below)
      (siblings : Outlines depth above ns after) :
      Outlines depth above (n :: ns) (line :: (below ++ after))

/-! ### Lines -/

theorem feed_not_mem_numberSuffix (number : Option Nat) : '\n' ∉ numberSuffix number := by
  cases number with
  | none => exact List.not_mem_nil
  | some n =>
    have hdigits : '\n' ∉ Text.ofNat n := fun h => absurd (Text.isDigit_of_mem_ofNat h) (by decide)
    simp [numberSuffix, hdigits]

/-- The tags that are not inherited are those behind the inherited ones. -/
theorem filter_inherited {inherited : TagSet} {own : List Tag}
    (h : (inherited.toList ++ own).Nodup) :
    (inherited.toList ++ own).filter (!inherited.contains ·) = own := by
  have hdrop : inherited.toList.filter (!inherited.contains ·) = [] := by
    rw [List.filter_eq_nil_iff]
    intro t ht
    simp [TagSet.contains_iff, ht]
  have hkeep : own.filter (!inherited.contains ·) = own := by
    rw [List.filter_eq_self]
    intro t ht
    have hnew : t ∉ inherited.toList := fun hmem => List.disjoint_of_nodup_append h hmem ht
    simpa [TagSet.contains] using hnew
  rw [List.filter_append, hdrop, hkeep, List.nil_append]

theorem feed_not_mem_tagSuffix (inherited : TagSet) {tags : TagSet} (h : tags.Clean) :
    '\n' ∉ tagSuffix inherited tags := by
  have hinside : '\n' ∉ Text.join [' '] (tags.toList.filter (!inherited.contains ·)) := by
    refine Text.feed_not_mem_join fun t ht hfeed => ?_
    obtain ⟨-, hblank⟩ := h.written t (List.mem_filter.1 ht).1
    exact absurd (hblank _ hfeed) (by decide)
  rw [tagSuffix]
  cases hshown : tags.toList.filter (!inherited.contains ·) with
  | nil => exact List.not_mem_nil
  | cons t ts =>
    rw [hshown] at hinside
    simp [hinside]

/-- The end of a line shows the tags behind the inherited ones. -/
theorem showsTags_tagSuffix {inherited tags : TagSet} {own : List Tag} (h : tags.Clean)
    (hown : inherited.toList ++ own = tags.toList) :
    ShowsTags own (tagSuffix inherited tags) := by
  have hfilter : tags.toList.filter (!inherited.contains ·) = own := by
    rw [← hown]
    exact filter_inherited (hown ▸ h.nodup)
  rw [tagSuffix, hfilter]
  by_cases hne : own = []
  · rw [hne]
    exact .nothing
  · rw [if_neg (by simpa using hne)]
    refine .brackets hne (Text.words_join fun t ht => ?_)
    obtain ⟨hhead, hblank⟩ := h.written t (hown ▸ List.mem_append_right _ ht)
    refine ⟨?_, hblank⟩
    rintro rfl
    cases hhead

theorem lineOf_node {inherited : TagSet} {own : List Tag} {n : Node} (hn : n.Presentable)
    (hown : inherited.toList ++ own = n.tags.toList) (depth : Nat) :
    LineOf depth own n
      (indent depth ++ n.text ++ numberSuffix n.number ++ tagSuffix inherited n.tags) where
  oneLine := by
    have htags := feed_not_mem_tagSuffix inherited hn.clean
    simp [indent, hn.oneLine, feed_not_mem_numberSuffix, htags]
  indented := by
    obtain ⟨c, rest, htext, hc⟩ := hn.visible
    refine ⟨c, rest ++ numberSuffix n.number ++ tagSuffix inherited n.tags, ?_, hc⟩
    simp [indent, htext]
  shows := ⟨_, rfl, showsTags_tagSuffix hn.clean hown⟩

theorem childLines_cons (inherited : TagSet) (depth : Nat) (n : Node) (ns : List Node) :
    childLines inherited depth (n :: ns) =
      (indent depth ++ n.text ++ numberSuffix n.number ++ tagSuffix inherited n.tags) ::
        (childLines n.tags (depth + 1) n.children ++ childLines inherited depth ns) := by
  cases n
  rfl

/-- If the children of each node have an outline, the nodes have one together. -/
theorem outlines_childLines {inherited : TagSet} {depth : Nat} {ns : List Node}
    (hns : ∀ n ∈ ns, n.Presentable) (htags : ∀ n ∈ ns, inherited.toList <+: n.tags.toList)
    (hbelow : ∀ n ∈ ns, Outlines (depth + 1) n.tags.toList n.children
      (childLines n.tags (depth + 1) n.children)) :
    Outlines depth inherited.toList ns (childLines inherited depth ns) := by
  induction ns with
  | nil => exact .nil
  | cons n ns ih =>
    rw [List.forall_mem_cons] at hns htags hbelow
    obtain ⟨own, hown⟩ := htags.1
    rw [childLines_cons]
    have hchildren := hbelow.1
    rw [← hown] at hchildren
    exact .cons (lineOf_node hns.1 hown depth) hown hns.1.clean.nodup hchildren
      (ih hns.2 htags.2 hbelow.2)

/-- The children of every node in a tree have an outline. -/
theorem outlines_children {n : Node} (h : n.Each Node.Presentable) (depth : Nat) :
    Outlines depth n.tags.toList n.children (childLines n.tags depth n.children) := by
  induction h generalizing depth with
  | intro here children ih =>
    exact outlines_childLines (fun c hc => (children c hc).here) here.children
      fun c hc => ih c hc (depth + 1)

theorem outlines_of_parse {ns : List Node}
    (hns : ∀ n ∈ ns, ∃ f path text, (parse f path text).result = .ok n) :
    Outlines 0 [] ns (childLines .empty 0 ns) := by
  have hpresentable : ∀ n ∈ ns, n.Each Node.Presentable := by
    intro n hn
    obtain ⟨f, path, text, h⟩ := hns n hn
    exact presentable_of_parse h
  exact outlines_childLines (fun n hn => (hpresentable n hn).here) (fun n _ => List.nil_prefix)
    fun n hn => outlines_children (hpresentable n hn) 1

/-! ### Shapes -/

/-- The indent of a line. -/
def width (line : Text) : Nat := (line.takeWhile (· == ' ')).length

theorem LineOf.width_eq {depth : Nat} {shown : List Tag} {n : Node} {line : Text}
    (h : LineOf depth shown n line) : width line = 2 * depth := by
  obtain ⟨c, rest, rfl, hc⟩ := h.indented
  have hspaces : ∀ x ∈ List.replicate (2 * depth) ' ', (x == ' ') = true := by simp
  have hstop : ∀ y ∈ (c :: rest).head?, (y == ' ') = false := by
    rintro y ⟨⟩
    rw [beq_eq_false_iff_ne]
    rintro rfl
    cases hc
  rw [width, Text.takeWhile_run hspaces hstop, List.length_replicate]

/-- Each line is one of a node at the depth of the roots or below. -/
theorem Outlines.exists_lineOf {depth : Nat} {above : List Tag} {ns : List Node} {ls : List Text}
    (h : Outlines depth above ns ls) :
    ∀ l ∈ ls, ∃ d, depth ≤ d ∧ ∃ shown n, LineOf d shown n l := by
  induction h with
  | nil => exact fun l hl => absurd hl List.not_mem_nil
  | @cons depth _ shown n _ _ _ _ here _ _ _ _ hbelow hafter =>
    intro l hl
    rw [List.mem_cons, List.mem_append] at hl
    rcases hl with rfl | hl | hl
    · exact ⟨depth, le_rfl, shown, n, here⟩
    · obtain ⟨d, hd, hline⟩ := hbelow l hl
      exact ⟨d, Nat.le_of_succ_le hd, hline⟩
    · exact hafter l hl

/-- The lines below a node are those up to the first that is not indented deeper. -/
theorem Outlines.split {depth : Nat} {above above' : List Tag} {ns ms : List Node}
    {below after : List Text} (hbelow : Outlines (depth + 1) above ns below)
    (hafter : Outlines depth above' ms after) :
    (below ++ after).takeWhile (fun l => decide (2 * depth < width l)) = below ∧
      (below ++ after).dropWhile (fun l => decide (2 * depth < width l)) = after := by
  have hdeeper : ∀ l ∈ below, decide (2 * depth < width l) = true := by
    intro l hl
    obtain ⟨d, hd, shown, n, hline⟩ := hbelow.exists_lineOf l hl
    exact decide_eq_true (by rw [hline.width_eq]; omega)
  have hstop : ∀ l ∈ after.head?, decide (2 * depth < width l) = false := by
    intro l hl
    cases hafter with
    | nil => cases hl
    | cons here _ _ _ _ =>
      obtain rfl := Option.some.inj hl
      exact decide_eq_false (by rw [here.width_eq]; omega)
  exact ⟨Text.takeWhile_run hdeeper hstop, Text.dropWhile_run hdeeper hstop⟩

/-- Trees with one outline have one shape. -/
theorem Outlines.sameShape {depth : Nat} {above above' : List Tag} {ns ms : List Node}
    {ls : List Text} (hns : Outlines depth above ns ls) (hms : Outlines depth above' ms ls) :
    List.Forall₂ Node.SameShape ns ms := by
  induction hns generalizing above' ms with
  | nil =>
    cases hms with
    | nil => exact .nil
  | @cons depth _ _ _ _ line below after _ _ _ hchildren hsiblings ihchildren ihsiblings =>
    generalize hls : line :: (below ++ after) = ls at hms
    cases hms with
    | nil => cases hls
    | cons _ _ _ hchildren' hsiblings' =>
      -- both outlines cut the lines behind the first where one is not indented deeper
      obtain ⟨-, hrest⟩ := List.cons.inj hls
      obtain ⟨htake, hdrop⟩ := hchildren.split hsiblings
      obtain ⟨htake', hdrop'⟩ := hchildren'.split hsiblings'
      rw [hrest, htake'] at htake
      rw [hrest, hdrop'] at hdrop
      subst htake hdrop
      exact .cons (.intro (ihchildren hchildren')) (ihsiblings hsiblings')

/-! ### Texts -/

theorem unlines_cons (l : Text) (ls : List Text) :
    unlines (l :: ls) = l ++ '\n' :: unlines ls := by
  simp [unlines]

/-- Lines without line feeds are read back. -/
theorem unlines_inj {as bs : List Text} (has : ∀ a ∈ as, '\n' ∉ a) (hbs : ∀ b ∈ bs, '\n' ∉ b)
    (h : unlines as = unlines bs) : as = bs := by
  induction as generalizing bs with
  | nil =>
    cases bs with
    | nil => rfl
    | cons b bs => simp [unlines] at h
  | cons a as ih =>
    cases bs with
    | nil => simp [unlines] at h
    | cons b bs =>
      rw [List.forall_mem_cons] at has hbs
      have hcut : some (a, unlines as) = some (b, unlines bs) := by
        rw [← Text.cutAt_append has.1, ← Text.cutAt_append hbs.1, ← unlines_cons, ← unlines_cons, h]
      obtain ⟨rfl, hrest⟩ := Prod.mk.inj (Option.some.inj hcut)
      rw [ih has.2 hbs.2 hrest]

theorem Outlines.oneLine {depth : Nat} {above : List Tag} {ns : List Node} {ls : List Text}
    (h : Outlines depth above ns ls) : ∀ l ∈ ls, '\n' ∉ l := by
  intro l hl
  obtain ⟨d, -, shown, n, hline⟩ := h.exists_lineOf l hl
  exact hline.oneLine

theorem render_features (ns : List Node) :
    render .text .feature ⟨ns, []⟩ = unlines (childLines .empty 0 ns) := by
  rw [render, featureLines, List.map_nil, List.append_nil]

/-- CORRECT (outlines): trees that were read are written one line a node, each indented by its depth,
    and the tags that the lines down to a node show are the tags of the node. Trees that are written
    alike have one shape. -/
theorem outline_tells_shape_and_tags {ns ms : List Node}
    (hns : ∀ n ∈ ns, ∃ f path text, (parse f path text).result = .ok n)
    (hms : ∀ m ∈ ms, ∃ f path text, (parse f path text).result = .ok m) :
    (∃ ls, render .text .feature ⟨ns, []⟩ = unlines ls ∧ Outlines 0 [] ns ls) ∧
      (render .text .feature ⟨ns, []⟩ = render .text .feature ⟨ms, []⟩ →
        List.Forall₂ Node.SameShape ns ms) := by
  have hlines := outlines_of_parse hns
  have hlines' := outlines_of_parse hms
  refine ⟨⟨_, render_features ns, hlines⟩, fun h => ?_⟩
  rw [render_features, render_features] at h
  rw [unlines_inj hlines.oneLine hlines'.oneLine h] at hlines
  exact hlines.sameShape hlines'

/-- A file with tags, in which a scenario becomes an outline. -/
def bracketedFile : Text :=
  "@a\nFeature: f\nScenario: s\nScenario: s\n@b @a\nExamples: e\n".toList

def bracketedTree : Node where
  kind := .feature
  text := "Feature: f".toList
  tags := ⟨["@a".toList]⟩
  children :=
    [{ kind := .scenario, text := "Scenario: s".toList, tags := ⟨["@a".toList]⟩, numbered := true },
      { kind := .outline, text := "Scenario: s".toList, tags := ⟨["@a".toList]⟩
        number := some 2, numbered := true
        children :=
          [{ kind := .examples, text := "Examples: e".toList
             tags := ⟨["@a".toList, "@b".toList]⟩ }] }]

/-- A file without tags, whose titles imitate brackets and a number. -/
def imitatedFile : Text :=
  "Feature: f [@a]\nScenario: s\nScenario: s (2)\nExamples: e [@b]\n".toList

def imitatedTree : Node where
  kind := .feature
  text := "Feature: f [@a]".toList
  tags := ⟨[]⟩
  children :=
    [{ kind := .scenario, text := "Scenario: s".toList, tags := ⟨[]⟩, numbered := true },
      { kind := .outline, text := "Scenario: s (2)".toList, tags := ⟨[]⟩, numbered := true
        children := [{ kind := .examples, text := "Examples: e [@b]".toList, tags := ⟨[]⟩ }] }]

/-- Both files have one outline, and their trees one shape. -/
theorem outline_of_bracketedFile :
    (parse .unfiltered none bracketedFile).result = .ok bracketedTree ∧
      (parse .unfiltered none imitatedFile).result = .ok imitatedTree ∧
      (render .text .feature ⟨[bracketedTree], []⟩ = ("Feature: f [@a]\n  Scenario: s\n" ++
        "  Scenario: s (2)\n    Examples: e [@b]\n").toList) ∧
      (∃ ls, render .text .feature ⟨[bracketedTree], []⟩ = unlines ls ∧
        Outlines 0 [] [bracketedTree] ls) ∧
      List.Forall₂ Node.SameShape [bracketedTree] [imitatedTree] := by
  have hread : (parse .unfiltered none bracketedFile).result = .ok bracketedTree := rfl
  have hread' : (parse .unfiltered none imitatedFile).result = .ok imitatedTree := rfl
  have hns : ∀ n ∈ [bracketedTree], ∃ f path text, (parse f path text).result = .ok n :=
    List.forall_mem_singleton.2 ⟨_, _, _, hread⟩
  have hms : ∀ m ∈ [imitatedTree], ∃ f path text, (parse f path text).result = .ok m :=
    List.forall_mem_singleton.2 ⟨_, _, _, hread'⟩
  obtain ⟨houtline, hshape⟩ := outline_tells_shape_and_tags hns hms
  exact ⟨hread, hread', rfl, houtline, hshape rfl⟩

end Report
end GherkinIndex
