import Mathlib.Data.List.Count
import GherkinIndex.Proofs.Feature.Extension
import GherkinIndex.Proofs.Feature.Listing
import GherkinIndex.Proofs.Text.Quotation

/-! Numbers and source lines.

    A number is given when a child is attached, which for a scenario or outline is long after its
    header, and only if the filter lets it stay. In the end it says which of the surviving siblings
    from the same trimmed line the child is. What a child shows is that line with its apostrophes
    escaped, and escaping keeps different lines apart.

        line             child          number
        Scenario: s      outline s      -        becomes an outline later on
        @w
        Scenario: s                              refused
        "  Scenario: s"  scenario s     2 -/

namespace GherkinIndex

/-! ### Numbers -/

/-- The numbers of texts, each by the count of its earlier occurrences. -/
def ordinals (ts : List Text) : List (Option Nat) :=
  ts.mapIdx fun i t => ordinal ((ts.take i).count t)

theorem ordinal_injective : Function.Injective ordinal := by
  intro a b h
  by_cases ha : a = 0 <;> by_cases hb : b = 0 <;> simp_all [ordinal]

@[simp] theorem length_ordinals (ts : List Text) : (ordinals ts).length = ts.length := by
  simp [ordinals]

theorem getElem_ordinals {ts : List Text} {i : Nat} (hi : i < ts.length)
    (hi' : i < (ordinals ts).length) : (ordinals ts)[i] = ordinal ((ts.take i).count ts[i]) := by
  simp [ordinals]

/-- Only which texts are equal counts. -/
theorem ordinals_map {g : Text → Text} (hg : Function.Injective g) (ts : List Text) :
    ordinals (ts.map g) = ordinals ts := by
  refine List.ext_getElem (by simp) fun i h₁ h₂ => ?_
  have hi : i < ts.length := by simpa using h₂
  rw [getElem_ordinals (by simpa using hi) h₁, getElem_ordinals hi h₂, List.getElem_map,
    ← List.map_take, List.count_map_of_injective _ _ hg]

theorem Node.numbers_renumber (cs : List Node) :
    (renumber cs).map (·.number) = ordinals (cs.map (·.text)) := by
  refine List.ext_getElem (by simp) fun i h₁ h₂ => ?_
  have hi : i < cs.length := by simpa using h₂
  rw [getElem_ordinals (by simpa using hi) h₂, List.getElem_map, List.getElem_map,
    ← List.map_take, List.count, List.countP_map]
  simp [renumber, Function.comp_def]

example : ordinals (["s", "t", "s", "s", "t"].map String.toList) =
    [none, none, some 2, some 3, some 2] := by decide

/-- A text with its number stands once. -/
theorem nodup_zip_ordinals (ts : List Text) : (ts.zip (ordinals ts)).Nodup := by
  rw [List.Nodup, List.pairwise_iff_getElem]
  intro i j hi hj hij heq
  have hi : i < ts.length := by simpa using hi
  have hj : j < ts.length := by simpa using hj
  rw [List.getElem_zip, List.getElem_zip, getElem_ordinals hi (by simpa using hi),
    getElem_ordinals hj (by simpa using hj), Prod.mk.injEq] at heq
  obtain ⟨htext, hnumber⟩ := heq
  have hcount := ordinal_injective hnumber
  -- the occurrence at `i` is among those before `j`
  have hmore : (ts.take (i + 1)).count ts[j] ≤ (ts.take j).count ts[j] :=
    (List.take_sublist_take_left (by omega)).count_le _
  rw [List.take_succ_eq_append_getElem hi, List.count_append, htext, List.count_singleton_self]
    at hmore
  rw [htext] at hcount
  omega

/-! ### Lines -/

/-- The text of a row. -/
def Mark.row? : Mark → Option Text
  | .row t => some t
  | _ => none

/-- A mark other than tags has the trimmed line as its text. -/
theorem Line.mark?_cases {l : Locale} {x : Text} {m : Mark} (h : mark? l x = some m) :
    (∃ ts, m = .tags ts) ∨ (∃ k, m = .header k (Text.trim x)) ∨ m = .row (Text.trim x) := by
  have hclass := mark?_eq_some_iff.1 h
  rw [classify] at hclass
  cases hd : delimiter? x with
  | some d => simp [hd] at hclass
  | none =>
    cases ht : tags? x with
    | some ts => exact .inl ⟨ts, by simpa [hd, ht] using hclass.symm⟩
    | none =>
      cases hm : header? l x with
      | some m' =>
        obtain rfl : m' = m := by simpa [hd, ht, hm] using hclass
        obtain ⟨k, -, hk⟩ := List.exists_of_findSome?_eq_some hm
        obtain ⟨t, hcapture, rfl⟩ := Option.map_eq_some_iff.1 hk
        simp only [captureHeader, Option.ite_none_right_eq_some, Option.some.injEq] at hcapture
        exact .inr (.inl ⟨k, by rw [← hcapture.2]; rfl⟩)
      | none =>
        simp only [hd, ht, hm, Option.map_eq_some_iff, row?, Option.ite_none_right_eq_some,
          Option.some.injEq] at hclass
        obtain ⟨t, ⟨-, rfl⟩, hrow⟩ := hclass
        exact .inr (.inr (by simpa using hrow.symm))

/-- What a header or row shows is its trimmed line. -/
structure ShowsLine (part : Mark → Option Text) : Prop where
  tags : ∀ ts, part (.tags ts) = none
  header : ∀ {k t u}, part (.header k t) = some u → u = t
  row : ∀ {t u}, part (.row t) = some u → u = t

theorem showsLine_construct? : ShowsLine Mark.construct? where
  tags _ := rfl
  header := by
    intro k t u h
    cases k <;> simp_all [Mark.construct?]
  row := by
    intro t u h
    cases h

theorem showsLine_row? : ShowsLine Mark.row? where
  tags _ := rfl
  header := by
    intro k t u h
    cases h
  row h := (Option.some.inj h).symm

/-- The visible lines of a file with such a mark, each with its place. -/
def linesWith (part : Mark → Option Text) (text : Text) : List (Text × Nat) :=
  (fileLines text).zipIdx.filter fun (x, i) =>
    Visible (fileLines text) i ∧ ((Line.mark? (fileLocale text) x).bind part).isSome

/-- The marks of these lines show the trimmed lines. -/
theorem ShowsLine.filterMap_marks {part : Mark → Option Text} (hpart : ShowsLine part)
    (text : Text) : ((visibleMarks text).map (·.mark)).filterMap part =
      (linesWith part text).map fun x => Text.trim x.1 := by
  rw [List.filterMap_map, visibleMarks, List.filterMap_filterMap, linesWith,
    ← List.filterMap_eq_map, List.filterMap_filter]
  refine List.filterMap_congr ?_
  rintro ⟨x, i⟩ -
  by_cases hv : Visible (fileLines text) i
  · cases hm : Line.mark? (fileLocale text) x with
    | none => simp [visibleMark, hv, hm]
    | some m =>
      have htext : ∀ u, part m = some u → u = Text.trim x := by
        intro u hu
        rcases Line.mark?_cases hm with ⟨ts, rfl⟩ | ⟨k, rfl⟩ | rfl
        · simp [hpart.tags] at hu
        · exact hpart.header hu
        · exact hpart.row hu
      cases hp : part m with
      | none => simp [visibleMark, hv, hm, hp]
      | some u => simp [visibleMark, hv, hm, hp, htext u hp]
  · simp [visibleMark, hv]

/-! ### Siblings -/

/-- Nodes that come from some of these lines, in order. -/
structure ComeFrom (part : Mark → Option Text) (text : Text) (src : List (Text × Nat))
    (ns : List Node) : Prop where
  lines : src.Sublist (linesWith part text)
  texts : ns.map (·.text) = src.map fun x => Text.escapeApostrophes (Text.trim x.1)

/-- Siblings that come from visible lines. Whichever lines they come from, each is numbered by the
    count of its earlier siblings with its trimmed line: not at all if there are none, else by one
    more than their count. So no two of them have both text and number in common. -/
structure ToldApart (part : Mark → Option Text) (text : Text) (ns : List Node) : Prop where
  sources : ∃ src, ComeFrom part text src ns
  numbers : ∀ src, ComeFrom part text src ns →
    ns.map (·.number) = ordinals (src.map fun x => Text.trim x.1)
  distinct : (ns.map fun n => (n.text, n.number)).Nodup

/-- Numbered nodes that show some of the marks of a file, in order, are told apart. -/
theorem toldApart_renumber {part : Mark → Option Text} (hpart : ShowsLine part) {text : Text}
    {cs : List Node} (hcs : (cs.map (·.text)).Sublist
      ((((visibleMarks text).map (·.mark)).filterMap part).map Text.escapeApostrophes)) :
    ToldApart part text (Node.renumber cs) where
  sources := by
    rw [hpart.filterMap_marks, List.map_map, List.sublist_map_iff] at hcs
    obtain ⟨src, hsrc, htexts⟩ := hcs
    exact ⟨src, hsrc, by rw [Node.map_text_renumber, htexts]; rfl⟩
  numbers := by
    intro src hsrc
    have htexts := hsrc.texts
    rw [Node.map_text_renumber] at htexts
    rw [Node.numbers_renumber, htexts,
      ← ordinals_map Text.escapeApostrophes_injective (src.map fun x => Text.trim x.1),
      List.map_map]
    rfl
  distinct := by
    rw [← List.zip_map', Node.map_text_renumber, Node.numbers_renumber]
    exact nodup_zip_ordinals _

/-- The rows of a section are rows of the file. -/
theorem rows_sublist {before ms : List Mark} {s : Section} (hs : s ∈ sections before ms) :
    s.rows.Sublist (ms.filterMap Mark.row?) := by
  have hrows (ks : List Mark) : rowsIn ks = ks.filterMap Mark.row? :=
    List.filterMap_congr fun k _ => by cases k <;> rfl
  induction ms generalizing before with
  | nil => cases hs
  | cons m ms ih =>
    cases m with
    | tags ts => exact ih hs
    | row t => exact (ih hs).trans (List.sublist_cons_self t _)
    | header h t =>
      rcases List.mem_cons.1 hs with rfl | hs
      · rw [List.filterMap_cons_none rfl, ← hrows]
        exact (List.takeWhile_sublist _).filterMap _
      · exact ih hs

/-- The children of a tree show headers of constructs of the file, in order. -/
theorem texts_of_children {f : TagFilter} {path : Option Text} {text : Text} {n : Node}
    (h : (parse f path text).result = .ok n) : ∃ cs, n.children = Node.renumber cs ∧
      (cs.map (·.text)).Sublist ((((visibleMarks text).map (·.mark)).filterMap
        Mark.construct?).map Text.escapeApostrophes) := by
  obtain ⟨s, ss, hss, rfl, -⟩ := parse_eq_fates h
  refine ⟨_, Node.children_withChildren _ _, (texts_of_fates f _ _).trans ?_⟩
  have hheads : (constructs ss).Sublist (constructs (s :: ss)) := by
    by_cases hs : s.header = .scenario ∨ s.header = .outline
    · rw [constructs_construct hs]
      exact List.sublist_cons_self _ _
    · rw [constructs, if_neg hs]
  rw [← head_constructs [], ← fileSections, hss]
  exact (hheads.map _).map _

/-- What stands below a group is a block of the file. -/
theorem block_of_mem_groups {ss : List Section} {g b : Node} (hg : g ∈ groups ss)
    (hb : b ∈ g.children) : ∃ x ∈ ss, ∃ outline, b = x.block outline := by
  cases ss with
  | nil => cases hg
  | cons s ss =>
    obtain ⟨c, hc, hnode⟩ := List.mem_filterMap.1 hg
    by_cases hblocks : c.blocks = []
    · -- a scenario has no children
      simp only [Construct.node?, if_pos hblocks, Option.ite_none_right_eq_some,
        Option.some.injEq] at hnode
      obtain ⟨-, rfl⟩ := hnode
      cases hb
    · simp only [Construct.node?, if_neg hblocks, Option.some.injEq] at hnode
      subst hnode
      obtain ⟨x, hx, rfl⟩ := List.mem_map.1 hb
      exact ⟨x, List.mem_cons_of_mem s ((mem_of_mem_constructs hc).2 hx), _, rfl⟩

/-- What stands below a child of a tree is a block of the file. -/
theorem block_of_child {f : TagFilter} {path : Option Text} {text : Text} {n : Node}
    (h : (parse f path text).result = .ok n) {o b : Node} (ho : o ∈ n.children)
    (hb : b ∈ o.children) : ∃ x ∈ fileSections text, ∃ outline, b = x.block outline := by
  rw [children_of_parse h] at ho
  obtain ⟨m, hm, k, rfl⟩ := Node.mem_renumber ho
  obtain ⟨g, hg, hkeep⟩ := List.mem_filterMap.1 hm
  obtain ⟨cs, hcs, rfl⟩ := Node.exists_of_keep hkeep
  exact block_of_mem_groups hg (hcs.subset hb)

/-- CORRECT (numbering): the children of a feature come from visible scenario and outline lines, and
    the rows of each examples block come from visible rows. Each of them has the number of its
    occurrence among the surviving siblings with its trimmed line, scenarios and outlines together,
    and no two of them share text and number. The feature and the blocks have no number. -/
theorem siblings_numbered_by_line {f : TagFilter} {path : Option Text} {text : Text} {n : Node}
    (h : (parse f path text).result = .ok n) :
    n.number = none ∧ ToldApart Mark.construct? text n.children ∧
      ∀ o ∈ n.children, ∀ b ∈ o.children,
        b.kind = .examples ∧ b.number = none ∧ ToldApart Mark.row? text b.children := by
  refine ⟨?_, ?_, fun o ho b hb => ?_⟩
  · obtain ⟨s, ss, -, rfl, -⟩ := parse_eq_fates h
    rfl
  · obtain ⟨cs, hchildren, htexts⟩ := texts_of_children h
    rw [hchildren]
    exact toldApart_renumber showsLine_construct? htexts
  · obtain ⟨x, hx, outline, rfl⟩ := block_of_child h ho hb
    refine ⟨rfl, rfl, toldApart_renumber showsLine_row? ?_⟩
    rw [List.map_map]
    exact (rows_sublist hx).map _

/-- Four scenarios with almost one line: the first becomes an outline, the second is refused, the
    last has a backslash where the others escape their apostrophe. -/
def lookalikeFile : Text :=
  ("Feature: f\nScenario: it's\nExamples: e\n|x|\n|y|\n |x|\n@w\nScenario: it's\n" ++
    "  Scenario: it's\nScenario: it\\'s\n").toList

theorem siblings_of_lookalikeFile_numbered :
    ∃ n, (parse (TagFilter.unfiltered.forbid ["@w".toList]) none lookalikeFile).result = .ok n ∧
      n.children.map (fun c => (c.kind, c.number)) =
        [(.outline, none), (.scenario, some 2), (.scenario, none)] ∧
      ((n.children.flatMap (·.children)).flatMap (·.children)).map (·.number) =
        [none, none, some 2] ∧
      ToldApart Mark.construct? lookalikeFile n.children := by
  have hread : ∃ n, (parse (TagFilter.unfiltered.forbid ["@w".toList]) none lookalikeFile).result =
        .ok n ∧
      n.children.map (fun c => (c.kind, c.number)) =
        [(.outline, none), (.scenario, some 2), (.scenario, none)] ∧
      ((n.children.flatMap (·.children)).flatMap (·.children)).map (·.number) =
        [none, none, some 2] := ⟨_, rfl, rfl, rfl⟩
  obtain ⟨n, hn, hnumbers, hrows⟩ := hread
  exact ⟨n, hn, hnumbers, hrows, (siblings_numbered_by_line hn).2.1⟩

end GherkinIndex
