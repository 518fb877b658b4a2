import GherkinIndex.Proofs.Feature.Layout
import GherkinIndex.Proofs.Feature.Ledger
import GherkinIndex.Proofs.Feature.Siblings
import GherkinIndex.Proofs.Text.Quotation

/-! What nodes show.

    Whatever becomes of a header or row on its way into a tree, its text stays what it is made of:
    a line of the file, trimmed, with its apostrophes escaped. A line that is made of blanks alone
    has no mark, so no node shows nothing.

        "  Scenario: it's \r"     Scenario: it\'s
        "\t|a\'b|"                |a\\'b|             -/

namespace GherkinIndex

/-! ### Everything in a tree -/

/-- `P` holds of a node and of everything below it. -/
inductive Node.Each (P : Node → Prop) : Node → Prop
  | intro {n : Node} (here : P n) (children : ∀ c ∈ n.children, Each P c) : Each P n

section
variable {P Q : Node → Prop} {n : Node}

theorem Node.Each.here (h : n.Each P) : P n := by
  cases h with
  | intro here _ => exact here

theorem Node.Each.child (h : n.Each P) {c : Node} (hc : c ∈ n.children) : c.Each P := by
  cases h with
  | intro _ children => exact children c hc

theorem Node.Each.and (hP : n.Each P) (hQ : n.Each Q) : n.Each fun m => P m ∧ Q m := by
  induction hP with
  | intro here _ ih => exact .intro ⟨here, hQ.here⟩ fun c hc => ih c hc (hQ.child hc)

theorem Node.Each.imp (h : n.Each P) (hPQ : ∀ m, P m → Q m) : n.Each Q := by
  induction h with
  | intro here _ ih => exact .intro (hPQ _ here) ih

end

/-! ### Lines -/

theorem Line.classify_nil (l : Locale) : classify l [] = none := by
  have hfence : delimiter? [] = none := rfl
  have htags : tags? [] = none := rfl
  have hrow : row? [] = none := rfl
  have hkeyword (h : Header) : captureHeader (l.spellings h) [] = none := by
    simp [captureHeader, Text.trimStart]
  have hheader : header? l [] = none := by simp [header?, hkeyword]
  rw [classify, hfence, htags, hheader, hrow]
  rfl

/-- A line of blanks has no class. -/
theorem trim_ne_nil_of_classify {l : Locale} {x : Text} {k : Line}
    (h : Line.classify l x = some k) : Text.trim x ≠ [] := by
  intro hx
  rw [← Line.classify_trim, hx, Line.classify_nil] at h
  cases h

/-- A trimmed line of the file that is not empty. -/
def IsTitle (text t : Text) : Prop := ∃ x ∈ fileLines text, Text.trim x = t ∧ t ≠ []

/-- The text of a header or row is a trimmed line. -/
theorem ShowsLine.isTitle {part : Mark → Option Text} (hpart : ShowsLine part) {text t : Text}
    {m : Mark} (hm : m ∈ (visibleMarks text).map (·.mark)) (ht : part m = some t) :
    IsTitle text t := by
  obtain ⟨p, hp, rfl⟩ := List.mem_map.1 hm
  obtain ⟨x, hx, hclass⟩ := exists_line_of_mem_visibleMarks hp
  have htrim : t = Text.trim x := by
    rcases Line.mark?_cases (Line.mark?_eq_some_iff.2 hclass) with ⟨ts, hmark⟩ | ⟨k, hmark⟩ | hmark
    · rw [hmark, hpart.tags] at ht
      cases ht
    · exact hpart.header (hmark ▸ ht)
    · exact hpart.row (hmark ▸ ht)
  exact ⟨x, hx, htrim.symm, htrim ▸ trim_ne_nil_of_classify hclass⟩

/-! ### Sections -/

theorem showsLine_title? : ShowsLine fun m => m.title?.map Prod.snd where
  tags _ := rfl
  header h := (Option.some.inj h).symm
  row := by
    intro t u h
    cases h

/-- The header of a section and its rows are trimmed lines. -/
theorem isTitle_of_mem_fileSections {text : Text} {s : Section} (hs : s ∈ fileSections text) :
    IsTitle text s.text ∧ ∀ t ∈ s.rows, IsTitle text t := by
  constructor
  · have htitle : s.title ∈ (fileSections text).map Section.title := List.mem_map_of_mem hs
    rw [fileSections, titles_sections, List.mem_filterMap] at htitle
    obtain ⟨m, hm, hmark⟩ := htitle
    exact showsLine_title?.isTitle hm (congrArg (Option.map Prod.snd) hmark)
  · intro t ht
    obtain ⟨m, hm, hmark⟩ := List.mem_filterMap.1 ((rows_sublist hs).subset ht)
    exact showsLine_row?.isTitle hm hmark

/-! ### Nodes -/

/-- The node shows a line of the file. -/
def Shows (text : Text) (n : Node) : Prop :=
  ∃ t, IsTitle text t ∧ n.text = Text.escapeApostrophes t

theorem shows_block {text : Text} {s : Section} (hs : s ∈ fileSections text) (outline : TagSet) :
    (s.block outline).Each (Shows text) := by
  obtain ⟨htext, hrows⟩ := isTitle_of_mem_fileSections hs
  refine .intro ⟨s.text, htext, rfl⟩ fun r hr => ?_
  obtain ⟨c, hc, k, rfl⟩ := Node.mem_renumber hr
  obtain ⟨t, ht, rfl⟩ := List.mem_map.1 hc
  exact .intro ⟨t, hrows t ht, rfl⟩ fun _ h => absurd h List.not_mem_nil

/-- Every node of a tree shows a line of its file. -/
theorem shows_of_parse {f : TagFilter} {path : Option Text} {text : Text} {n : Node}
    (h : (parse f path text).result = .ok n) : n.Each (Shows text) := by
  have hroot : Shows text n := by
    obtain ⟨s, ss, hss, rfl, -⟩ := parse_eq_fates h
    have hs : s ∈ fileSections text := hss ▸ List.mem_cons_self
    exact ⟨s.text, (isTitle_of_mem_fileSections hs).1, rfl⟩
  have hconstruct : ∀ c ∈ n.children, Shows text c := by
    intro c hc
    obtain ⟨cs, hchildren, htexts⟩ := texts_of_children h
    have hmem : c.text ∈ cs.map (·.text) := by
      rw [← Node.map_text_renumber, ← hchildren]
      exact List.mem_map_of_mem hc
    obtain ⟨t, ht, hshown⟩ := List.mem_map.1 (htexts.subset hmem)
    obtain ⟨m, hm, hmark⟩ := List.mem_filterMap.1 ht
    exact ⟨t, showsLine_construct?.isTitle hm hmark, hshown.symm⟩
  refine .intro hroot fun o ho => .intro (hconstruct o ho) fun b hb => ?_
  obtain ⟨s, hs, outline, rfl⟩ := block_of_child h ho hb
  exact shows_block hs outline

/-! ### Quotations -/

/-- CORRECT (quotations): every node shows a trimmed line with its apostrophes escaped. Its text can
    be put between apostrophes, the backslash being the escape character, exactly if an even number
    of backslashes stands before each apostrophe of the line. -/
theorem quoted_iff_unescaped {f : TagFilter} {path : Option Text} {text : Text} {n : Node}
    (h : (parse f path text).result = .ok n) :
    n.Each fun m => ∃ x ∈ fileLines text, m.text = Text.escapeApostrophes (Text.trim x) ∧
      (m.text.Guarded ↔ (Text.trim x).Unescaped) ∧
      (Text.endsQuotation false m.text = false ↔ m.text.Guarded) := by
  refine (shows_of_parse h).imp ?_
  rintro m ⟨t, ⟨x, hx, rfl, -⟩, hshown⟩
  refine ⟨x, hx, hshown, ?_, Text.endsQuotation_eq_false_iff⟩
  rw [hshown]
  exact Text.guarded_escapeApostrophes_iff

/-- A file with an apostrophe behind two backslashes and a row with one behind a single backslash. -/
def backslashFile : Text :=
  "Feature: f\nScenario: a\\\\'b\nExamples: it's\n|c\\'d|\n".toList

theorem quoted_iff_unescaped_backslashFile :
    ∃ n, (parse .unfiltered none backslashFile).result = .ok n ∧
      n.childTexts = ["Scenario: a\\\\\\'b".toList] ∧ (∀ c ∈ n.children, c.text.Guarded) ∧
      ∀ c ∈ n.children, ∀ b ∈ c.children, b.text.Guarded ∧ ∀ r ∈ b.children, ¬ r.text.Guarded := by
  have hread : ∃ n, (parse .unfiltered none backslashFile).result = .ok n ∧
      n.childTexts = ["Scenario: a\\\\\\'b".toList] ∧
      (∀ c ∈ n.children, Text.endsQuotation false c.text = false) ∧
      ∀ c ∈ n.children, ∀ b ∈ c.children, Text.endsQuotation false b.text = false ∧
        ∀ r ∈ b.children, Text.endsQuotation false r.text = true :=
    ⟨_, rfl, rfl, by decide, by decide⟩
  obtain ⟨n, hn, htexts, hchildren, hbelow⟩ := hread
  have hquoted := quoted_iff_unescaped hn
  refine ⟨n, hn, htexts, fun c hc => ?_, fun c hc b hb => ?_⟩
  · obtain ⟨x, -, -, -, hends⟩ := (hquoted.child hc).here
    exact hends.1 (hchildren c hc)
  · obtain ⟨hblock, hrows⟩ := hbelow c hc b hb
    obtain ⟨x, -, -, -, hends⟩ := ((hquoted.child hc).child hb).here
    refine ⟨hends.1 hblock, fun r hr hguarded => ?_⟩
    obtain ⟨y, -, -, -, hends⟩ := (((hquoted.child hc).child hb).child hr).here
    have hrow := hrows r hr
    rw [hends.2 hguarded] at hrow
    cases hrow

/-- An apostrophe behind a backslash loses the one that escapes it to that backslash. -/
theorem backslash_unguards_apostrophe :
    ∃ n, (parse .unfiltered none "Feature: a\\'b\n".toList).result = .ok n ∧
      n.text = "Feature: a\\\\'b".toList ∧ ¬ n.text.Guarded ∧
      Text.endsQuotation false n.text = true := by
  refine ⟨_, rfl, rfl, fun hguarded => ?_, rfl⟩
  have hodd : Odd (Text.endingBackslashes "Feature: a\\\\".toList) := hguarded _ ['b'] rfl
  exact absurd hodd (by decide)

end GherkinIndex
