import GherkinIndex.Proofs.Feature.Pruning
import GherkinIndex.Proofs.Text.Lines

/-! A file that goes on.

    What is written behind complete lines adds visible marks and changes none of those before. Rows
    at its start join the last section, examples join the last construct, and everything else opens
    constructs of its own. So all constructs but the last one stay as they are, and the last one does
    too when the first thing that follows is a scenario or an outline.

        sections      f   s   e          f   s   e+rows   e'  |  t
        constructs        s(e)               s(e+rows, e')    |  t -/

namespace GherkinIndex

/-! ### Lines -/

/-- The visible marks of the lines of `u` when it is written behind `t`. -/
def marksBehind (t u : Text) : List Placed :=
  (visibleMarks (t ++ u)).filter ((fileLines t).length < ·.line)

section
variable {t : Text} (ht : t.getLast? = some '\n') (u : Text)
include ht

theorem fileLines_append : fileLines (t ++ u) = fileLines t ++ Text.lines u := by
  have hne : t ≠ [] := by
    rintro rfl
    simp at ht
  rw [fileLines, Text.dropMark_append hne, Text.lines_append (Text.getLast?_dropMark ht), fileLines]

/-- The first line, which names the language, is there already. -/
theorem fileLocale_append : fileLocale (t ++ u) = fileLocale t := by
  have hne : fileLines t ≠ [] := by
    refine Text.lines_ne_nil fun hnil => ?_
    simpa [hnil] using Text.getLast?_dropMark ht
  rw [fileLocale, fileLines_append ht, List.head?_append_of_ne_nil _ hne, fileLocale]

end

/-- Lines below do not hide a line. -/
theorem visible_append_iff {xs ys : List Text} {i : Nat} (hi : i ≤ xs.length) :
    Visible (xs ++ ys) i ↔ Visible xs i := by
  rw [visible_iff_openOn, visible_iff_openOn, openOn, openOn, List.take_append_of_le_length hi]

/-- Marks are on the lines that are looked at, counted from one. -/
theorem line_bounds {l : Locale} {xs ys : List Text} {k : Nat} {p : Placed}
    (hp : p ∈ (ys.zipIdx k).filterMap fun (x, i) => visibleMark l xs i x) :
    k < p.line ∧ p.line ≤ k + ys.length := by
  obtain ⟨⟨x, i⟩, hx, hmark⟩ := List.mem_filterMap.1 hp
  have hle : k ≤ i := List.le_snd_of_mem_zipIdx hx
  have hlt : i < k + ys.length := by simpa [Nat.add_comm] using List.snd_lt_of_mem_zipIdx hx
  simp only [visibleMark, Option.ite_none_right_eq_some, Option.map_eq_some_iff] at hmark
  obtain ⟨-, m, -, rfl⟩ := hmark
  exact ⟨Nat.lt_succ_of_le hle, hlt⟩

/-- What is written behind complete lines leaves the visible marks before as they are. -/
theorem visibleMarks_append {t : Text} (ht : t.getLast? = some '\n') (u : Text) :
    visibleMarks (t ++ u) = visibleMarks t ++ marksBehind t u := by
  have hcut : visibleMarks (t ++ u) = visibleMarks t ++
      ((Text.lines u).zipIdx (fileLines t).length).filterMap fun (x, i) =>
        visibleMark (fileLocale (t ++ u)) (fileLines (t ++ u)) i x := by
    rw [visibleMarks, fileLocale_append ht, fileLines_append ht, List.zipIdx_append, Nat.zero_add,
      List.filterMap_append, visibleMarks]
    congr 1
    refine List.filterMap_congr fun ⟨x, i⟩ hx => ?_
    have hi : i < (fileLines t).length := by simpa using List.snd_lt_of_mem_zipIdx hx
    simp only [visibleMark, visible_append_iff (Nat.le_of_lt hi)]
  have hbefore : (visibleMarks t).filter ((fileLines t).length < ·.line) = [] := by
    rw [List.filter_eq_nil_iff]
    intro p hp
    simpa using (line_bounds hp).2
  rw [marksBehind, hcut, List.filter_append, hbefore, List.nil_append, List.filter_eq_self.2]
  intro p hp
  simpa using (line_bounds hp).1

/-! ### Sections -/

/-- A section with more rows at its end. -/
def Section.moreRows (s : Section) (rows : List Text) : Section := { s with rows := s.rows ++ rows }

@[simp] theorem Section.moreRows_nil (s : Section) : s.moreRows [] = s := by
  simp [moreRows]

/-- Marks that follow add rows to the last section and sections behind it; without a section they
    are cut as if nothing but tags and rows stood before them. -/
theorem sections_append (before ms more : List Mark) :
    (sections before ms = [] ∧ sections before (ms ++ more) = sections (before ++ ms) more ∧
        rowsAhead (ms ++ more) = rowsAhead ms ++ rowsAhead more) ∨
      ∃ init s between, sections before ms = init ++ [s] ∧
        sections before (ms ++ more) =
          init ++ s.moreRows (rowsAhead more) :: sections between more ∧
        rowsAhead (ms ++ more) = rowsAhead ms := by
  induction ms generalizing before with
  | nil => exact .inl ⟨rfl, by simp, by simp [rowsAhead, rowsIn]⟩
  | cons m ms ih =>
    cases m with
    | tags ts =>
      rw [List.cons_append, sections_tags, sections_tags, rowsAhead_tags, rowsAhead_tags,
        List.append_cons before (.tags ts) ms]
      exact ih _
    | row t =>
      rw [List.cons_append, sections_row, sections_row, rowsAhead_row, rowsAhead_row,
        List.append_cons before (.row t) ms, List.cons_append, List.cons.injEq, List.cons.injEq]
      simpa only [true_and] using ih (before ++ [.row t])
    | header h t =>
      rw [List.cons_append, sections_header, sections_header, rowsAhead_header, rowsAhead_header]
      rcases ih [] with ⟨hnil, hmore, hrows⟩ | ⟨init, s, between, hms, hmore, hrows⟩
      · -- the header opens the last section
        refine .inr ⟨[], ⟨h, t, tagsIn before, rowsAhead ms⟩, ms, ?_, ?_, rfl⟩
        · rw [hnil, List.nil_append]
        · rw [hmore, hrows, List.nil_append, List.nil_append]
          rfl
      · refine .inr ⟨⟨h, t, tagsIn before, rowsAhead ms⟩ :: init, s, between, ?_, ?_, rfl⟩
        · rw [hms, List.cons_append]
        · rw [hmore, hrows, List.cons_append]

/-! ### Constructs -/

/-- The header text of a scenario or outline. -/
def Mark.construct? : Mark → Option Text
  | .header .scenario t => some t
  | .header .outline t => some t
  | _ => none

/-- The first header or row, if there is one, is the header of a scenario or outline. -/
def startsConstruct (ms : List Mark) : Bool :=
  match ms with
  | .tags _ :: ms => startsConstruct ms
  | m :: _ => m.construct?.isSome
  | [] => true

theorem blocksAhead_other {s : Section} (hs : s.header ≠ .examples) (ss : List Section) :
    blocksAhead (s :: ss) = [] := by
  simp [blocksAhead, Section.isExamples, hs]

/-- The constructs of a stretch are its scenarios and outlines. -/
theorem head_constructs (before ms : List Mark) :
    (constructs (sections before ms)).map (·.head.text) = ms.filterMap Mark.construct? := by
  induction ms generalizing before with
  | nil => rfl
  | cons m ms ih =>
    cases m with
    | tags ts => rw [sections_tags, ih, List.filterMap_cons_none rfl]
    | row t => rw [sections_row, ih, List.filterMap_cons_none rfl]
    | header h t =>
      rw [sections_header]
      cases h with
      | feature => rw [constructs, if_neg (by simp), ih, List.filterMap_cons_none rfl]
      | scenario =>
        rw [constructs_construct (.inl rfl), List.map_cons, ih]
        rfl
      | outline =>
        rw [constructs_construct (.inr rfl), List.map_cons, ih]
        rfl
      | examples => rw [constructs_examples rfl, ih, List.filterMap_cons_none rfl]

/-- A stretch that starts with a construct adds neither rows nor blocks to what stands before. -/
theorem ahead_of_startsConstruct {ms : List Mark} (h : startsConstruct ms = true)
    (before : List Mark) : rowsAhead ms = [] ∧ blocksAhead (sections before ms) = [] := by
  induction ms generalizing before with
  | nil => exact ⟨rfl, rfl⟩
  | cons m ms ih =>
    cases m with
    | tags ts =>
      rw [rowsAhead_tags, sections_tags]
      exact ih h _
    | row t => cases h
    | header k t =>
      refine ⟨rowsAhead_header .., ?_⟩
      rw [sections_header]
      cases k with
      | feature => cases h
      | scenario => exact blocksAhead_other (by simp) _
      | outline => exact blocksAhead_other (by simp) _
      | examples => cases h

/-- Sections that start with no examples are constructs of their own. -/
theorem constructs_append {ss more : List Section} (h : blocksAhead more = []) :
    constructs (ss ++ more) = constructs ss ++ constructs more := by
  have hahead : ∀ xs, blocksAhead (xs ++ more) = blocksAhead xs := by
    intro xs
    induction xs with
    | nil => exact h
    | cons x xs ih =>
      by_cases hx : x.header = .examples
      · rw [List.cons_append, blocksAhead_examples hx, blocksAhead_examples hx, ih]
      · rw [List.cons_append, blocksAhead_other hx, blocksAhead_other hx]
  induction ss with
  | nil => rfl
  | cons s ss ih =>
    rw [List.cons_append, constructs, constructs]
    by_cases hs : s.header = .scenario ∨ s.header = .outline
    · rw [if_pos hs, if_pos hs, ih, hahead, List.cons_append]
    · rw [if_neg hs, if_neg hs, ih]

/-- The blocks ahead of a construct are complete, whatever becomes of the last section. -/
theorem blocksAhead_of_constructs {s s' : Section} (hs : s'.header = s.header) {ss : List Section}
    (h : constructs (ss ++ [s]) ≠ []) (more : List Section) :
    blocksAhead (ss ++ s' :: more) = blocksAhead (ss ++ [s]) := by
  induction ss with
  | nil =>
    have hne : s.header ≠ .examples := by
      intro hex
      simp [constructs_examples hex, constructs] at h
    rw [List.nil_append, List.nil_append, blocksAhead_other hne, blocksAhead_other (hs ▸ hne)]
  | cons x xs ih =>
    rw [List.cons_append] at h
    by_cases hx : x.header = .examples
    · rw [constructs_examples hx] at h
      rw [List.cons_append, List.cons_append, blocksAhead_examples hx, blocksAhead_examples hx,
        ih h]
    · rw [List.cons_append, List.cons_append, blocksAhead_other hx, blocksAhead_other hx]

/-- All constructs but the last one are complete, whatever becomes of the last section. -/
theorem dropLast_constructs {s s' : Section} (hs : s'.header = s.header)
    (ss more : List Section) :
    (constructs (ss ++ [s])).dropLast <+: constructs (ss ++ s' :: more) := by
  induction ss with
  | nil =>
    have hnone : (constructs [s]).dropLast = [] := by
      rw [constructs]
      split <;> rfl
    rw [List.nil_append, hnone]
    exact List.nil_prefix
  | cons x xs ih =>
    by_cases hx : x.header = .scenario ∨ x.header = .outline
    · rw [List.cons_append, List.cons_append, constructs_construct hx, constructs_construct hx]
      by_cases hnil : constructs (xs ++ [s]) = []
      · rw [hnil]
        exact List.nil_prefix
      · rw [List.dropLast_cons_of_ne_nil hnil, blocksAhead_of_constructs hs hnil]
        exact List.cons_prefix_cons.2 ⟨rfl, ih⟩
    · rw [List.cons_append, List.cons_append, constructs, if_neg hx, constructs, if_neg hx]
      exact ih

/-- What a longer file leaves of the sections of a shorter one: the header of its feature, the
    constructs but the last one, and all of them when a construct follows. -/
theorem fileSections_append {t u : Text} (ht : t.getLast? = some '\n') {s s' : Section}
    {ss ss' : List Section} (h : fileSections t = s :: ss)
    (h' : fileSections (t ++ u) = s' :: ss') :
    let behind := (marksBehind t u).map (·.mark)
    (∀ path, s'.feature path = s.feature path) ∧
      (constructs ss).dropLast <+: constructs ss' ∧
      (startsConstruct behind = true → ∃ between,
        constructs ss' = constructs ss ++ constructs (sections between behind)) := by
  intro behind
  rw [fileSections, visibleMarks_append ht, List.map_append] at h'
  rcases sections_append [] ((visibleMarks t).map (·.mark)) behind with
    ⟨hnil, -⟩ | ⟨init, l, between, hms, hmore, -⟩
  · rw [fileSections, hnil] at h
    cases h
  rw [fileSections, hms] at h
  rw [hmore] at h'
  cases init with
  | nil =>
    -- the feature header is the last one
    obtain ⟨rfl, rfl⟩ := List.cons.inj h
    obtain ⟨rfl, rfl⟩ := List.cons.inj h'
    exact ⟨fun _ => rfl, List.nil_prefix, fun _ => ⟨between, rfl⟩⟩
  | cons x xs =>
    rw [List.cons_append] at h h'
    obtain ⟨rfl, rfl⟩ := List.cons.inj h
    obtain ⟨rfl, rfl⟩ := List.cons.inj h'
    have hheader : (l.moreRows (rowsAhead behind)).header = l.header := rfl
    refine ⟨fun _ => rfl, dropLast_constructs hheader xs _, fun hstarts => ⟨between, ?_⟩⟩
    obtain ⟨hrows, hblocks⟩ := ahead_of_startsConstruct hstarts between
    rw [hrows, Section.moreRows_nil, List.append_cons, constructs_append hblocks]

/-! ### Trees -/

/-- A construct is named by its header. -/
theorem Construct.text_of_fate {f : TagFilter} {feature : TagSet} {c : Construct} {m : Node}
    (h : (c.fate f feature).node = some m) : m.text = Text.escapeApostrophes c.head.text := by
  rw [fate_node, Option.bind_eq_some_iff] at h
  obtain ⟨g, hg, hm⟩ := h
  obtain ⟨cs, -, rfl⟩ := Node.exists_of_keep hm
  rw [Node.text_withChildren]
  by_cases hblocks : c.blocks = []
  · rw [node?, if_pos hblocks, Option.ite_none_right_eq_some, Option.some.injEq] at hg
    rw [← hg.2]
    rfl
  · rw [node?, if_neg hblocks] at hg
    rw [← Option.some.inj hg]
    rfl

/-- The nodes that constructs leave have the texts of some of their headers, in order. -/
theorem texts_of_fates (f : TagFilter) (feature : TagSet) (cs : List Construct) :
    (((cs.map (·.fate f feature)).filterMap (·.node)).map (·.text)).Sublist
      ((cs.map (·.head.text)).map Text.escapeApostrophes) := by
  induction cs with
  | nil => exact List.Sublist.slnil
  | cons c cs ih =>
    rw [List.map_cons, List.map_cons, List.map_cons]
    cases hc : (c.fate f feature).node with
    | none =>
      rw [List.filterMap_cons_none hc]
      exact ih.cons _
    | some m =>
      rw [List.filterMap_cons_some hc, List.map_cons, Construct.text_of_fate hc]
      exact ih.cons_cons _

/-- Without its last node, what constructs leave is left by all of them but the last one. -/
theorem dropLast_filterMap {α β : Type} (p : α → Option β) (xs : List α) :
    (xs.filterMap p).dropLast <+: xs.dropLast.filterMap p := by
  rcases List.eq_nil_or_concat xs with rfl | ⟨ys, y, rfl⟩
  · exact List.nil_prefix
  · rw [List.concat_eq_append, List.dropLast_concat, List.filterMap_append]
    cases hy : p y with
    | none => simpa [hy] using List.dropLast_prefix _
    | some b => simp [hy]

/-- CORRECT (extension): a file that is refused at a line stays so whatever is written behind its
    last line. A tree keeps its feature header and all children but the last one, with their
    numbers. It keeps the last one too when a scenario or outline is the first thing that follows,
    so the end of a file completes a construct just as the next one does; the further children are
    named by headers behind. -/
theorem parse_append {t : Text} (ht : t.getLast? = some '\n') (u : Text) (f : TagFilter)
    (path : Option Text) :
    (∀ e, (parse f path t).result = .error e → e.fault ≠ .missingFeature →
        (parse f path (t ++ u)).result = .error e) ∧
      ∀ n₁ n₂, (parse f path t).result = .ok n₁ → (parse f path (t ++ u)).result = .ok n₂ →
        (n₂.text = n₁.text ∧ n₂.tags = n₁.tags ∧ n₂.path = n₁.path) ∧
          n₁.children.dropLast <+: n₂.children ∧
          let behind := (marksBehind t u).map (·.mark)
          (startsConstruct behind = true → ∃ rest, n₂.children = n₁.children ++ rest ∧
            (rest.map (·.text)).Sublist
              ((behind.filterMap Mark.construct?).map Text.escapeApostrophes)) := by
  constructor
  · intro e he hfault
    rw [result_error_iff] at he ⊢
    rcases he with ⟨p, ⟨before, after, hcut, hfit, hbreak⟩, hline⟩ | ⟨-, rfl⟩
    · refine .inl ⟨p, ⟨before, after ++ (marksBehind t u).filterMap Placed.heading?, ?_, hfit,
        hbreak⟩, hline⟩
      rw [visibleHeadings, visibleMarks_append ht, List.filterMap_append, ← visibleHeadings, hcut,
        List.append_assoc, List.cons_append]
    · exact absurd rfl hfault
  · intro n₁ n₂ h₁ h₂
    obtain ⟨s, ss, hss, rfl, -⟩ := parse_eq_fates h₁
    obtain ⟨s', ss', hss', rfl, -⟩ := parse_eq_fates h₂
    obtain ⟨hfeature, hinit, hall⟩ := fileSections_append ht hss hss'
    rw [hfeature path]
    refine ⟨⟨rfl, rfl, rfl⟩, ?_, fun hstarts => ?_⟩
    · rw [Node.children_withChildren, Node.children_withChildren, Node.dropLast_renumber, fates,
        fates, hfeature none]
      refine Node.renumber_mono ((dropLast_filterMap _ _).trans ?_)
      rw [← List.map_dropLast]
      exact (hinit.map _).filterMap _
    · obtain ⟨between, hbetween⟩ := hall hstarts
      rw [Node.children_withChildren, Node.children_withChildren, fates, fates, hfeature none,
        hbetween, List.map_append, List.filterMap_append]
      obtain ⟨rest, hrest, htexts⟩ := Node.renumber_append _ _
      refine ⟨rest, hrest, ?_⟩
      rw [htexts, ← head_constructs between]
      exact texts_of_fates f _ _

/-- A file with an outline that is still open at its end. -/
def openFile : Text := "Feature: f\n@a\nScenario: s\nExamples: e\n|x|\n".toList

/-- A second scenario with the same text. -/
def trailer : Text := "@b\nScenario: s\n".toList

theorem parse_openFile_trailer :
    openFile.getLast? = some '\n' ∧ ∃ n₁ n₂, (parse .unfiltered none openFile).result = .ok n₁ ∧
      (parse .unfiltered none (openFile ++ trailer)).result = .ok n₂ ∧
      n₂.children.map (fun c => (c.kind, c.number)) = [(.outline, none), (.scenario, some 2)] ∧
      n₁.children.length = 1 ∧ ∃ rest, n₂.children = n₁.children ++ rest := by
  have hend : openFile.getLast? = some '\n' := by decide
  have hread : ∃ n₁ n₂, (parse .unfiltered none openFile).result = .ok n₁ ∧
      (parse .unfiltered none (openFile ++ trailer)).result = .ok n₂ ∧
      n₂.children.map (fun c => (c.kind, c.number)) = [(.outline, none), (.scenario, some 2)] ∧
      n₁.children.length = 1 := ⟨_, _, rfl, rfl, rfl, rfl⟩
  obtain ⟨n₁, n₂, h₁, h₂, hkinds, hone⟩ := hread
  have hstarts : startsConstruct ((marksBehind openFile trailer).map (·.mark)) = true := by decide
  obtain ⟨rest, hrest, -⟩ :=
    ((parse_append hend trailer .unfiltered none).2 n₁ n₂ h₁ h₂).2.2 hstarts
  exact ⟨hend, n₁, n₂, h₁, h₂, hkinds, hone, rest, hrest⟩

end GherkinIndex
