import GherkinIndex.Proofs.Feature.Numbering
import GherkinIndex.Proofs.Feature.Visible
import GherkinIndex.Proofs.Tag.Set

/-! The tree of a file, read off its visible lines.

    Cut at its headers, a file is a list of sections: a header with the tags written since the header
    before it and the rows written before the next one. Cut at its scenarios and outlines, it is a
    list of constructs: a section and the examples sections right after it.

        @a
        Feature: f          section
        @b
        Scenario: s         section ─┐
        Examples: e         section  │ construct
          | x |                      │
        Examples: e         section ─┘
        Scenario: t         section ─  construct

    Nothing here is carried from line to line, and no filter is in sight. -/

namespace GherkinIndex

/-- A header with the tags written before it and the rows written after it. -/
structure Section where
  header : Header
  text : Text
  own : List Tag
  rows : List Text

/-- A scenario or outline header with the examples that belong to it. -/
structure Construct where
  head : Section
  blocks : List Section

/-! ### Cutting -/

def Mark.isHeader : Mark → Bool
  | .header .. => true
  | _ => false

/-- The tags of the tag lines in a stretch of a file. -/
def tagsIn (ms : List Mark) : List Tag :=
  ms.flatMap fun
    | .tags ts => ts
    | _ => []

/-- The rows in a stretch of a file. -/
def rowsIn (ms : List Mark) : List Text :=
  ms.filterMap fun
    | .row t => some t
    | _ => none

/-- The rows before the next header. -/
def rowsAhead (ms : List Mark) : List Text := rowsIn (ms.takeWhile (!·.isHeader))

/-- The sections of a stretch of a file; `before` is what stands between it and the last header. -/
def sections (before : List Mark) : List Mark → List Section
  | [] => []
  | .header h t :: ms => ⟨h, t, tagsIn before, rowsAhead ms⟩ :: sections [] ms
  | m :: ms => sections (before ++ [m]) ms

def Section.isExamples (s : Section) : Bool := s.header == .examples

/-- The sections that are examples of what stands before them. -/
def blocksAhead (ss : List Section) : List Section := ss.takeWhile (·.isExamples)

/-- Each scenario or outline with the examples right after it. -/
def constructs : List Section → List Construct
  | [] => []
  | s :: ss =>
    if s.header = .scenario ∨ s.header = .outline then ⟨s, blocksAhead ss⟩ :: constructs ss
    else constructs ss

/-! ### Nodes -/

/-- The childless node of a header below a parent with the tags `inherited`. -/
def Section.node (kind : Kind) (numbered : Bool) (inherited : TagSet) (s : Section) : Node where
  kind := kind
  text := Text.escapeApostrophes s.text
  tags := ⟨Tag.inherit inherited.toList s.own⟩
  numbered := numbered

/-- A row of a block with the tags `tags`. -/
def rowNode (tags : TagSet) (t : Text) : Node where
  kind := .row
  text := Text.escapeApostrophes t
  tags := tags
  numbered := true

/-- The examples block of a section, with its rows. -/
def Section.block (outline : TagSet) (s : Section) : Node :=
  let b := s.node .examples false outline
  b.withChildren (Node.renumber (s.rows.map (rowNode b.tags)))

/-- A construct with examples is an outline, whatever its header. Without any, a scenario is a
    scenario and an outline is nothing. -/
def Construct.node? (feature : TagSet) (c : Construct) : Option Node :=
  if c.blocks = [] then
    if c.head.header = .scenario then some (c.head.node .scenario true feature) else none
  else
    let o := c.head.node .outline true feature
    some (o.withChildren (c.blocks.map (·.block o.tags)))

/-- The childless feature of a file at `path`. -/
def Section.feature (path : Option Text) (s : Section) : Node :=
  { s.node .feature false .empty with path := path }

/-- The feature of the first section with the constructs of the others. -/
def Node.ofSections (path : Option Text) : List Section → Option Node
  | [] => none
  | s :: ss =>
    let feature := s.feature path
    some (feature.withChildren (renumber ((constructs ss).filterMap (·.node? feature.tags))))

/-- The sections of a file. -/
def fileSections (text : Text) : List Section := sections [] ((visibleMarks text).map (·.mark))

/-- The tree of a file by the cuts in its visible lines. -/
def groupedTree (path : Option Text) (text : Text) : Option Node :=
  Node.ofSections path (fileSections text)

/-! ### Cutting one mark further -/

section
variable (before ms : List Mark)

theorem sections_tags (ts : List Tag) :
    sections before (.tags ts :: ms) = sections (before ++ [.tags ts]) ms := rfl

theorem sections_row (t : Text) :
    sections before (.row t :: ms) = sections (before ++ [.row t]) ms := rfl

theorem sections_header (h : Header) (t : Text) :
    sections before (.header h t :: ms) =
      ⟨h, t, tagsIn before, rowsAhead ms⟩ :: sections [] ms := rfl

theorem tagsIn_concat_tags (ts : List Tag) :
    tagsIn (before ++ [.tags ts]) = tagsIn before ++ ts := by
  simp [tagsIn]

theorem tagsIn_concat_row (t : Text) : tagsIn (before ++ [.row t]) = tagsIn before := by
  simp [tagsIn]

theorem rowsAhead_tags (ts : List Tag) : rowsAhead (.tags ts :: ms) = rowsAhead ms := by
  simp [rowsAhead, rowsIn, Mark.isHeader]

theorem rowsAhead_row (t : Text) : rowsAhead (.row t :: ms) = t :: rowsAhead ms := by
  simp [rowsAhead, rowsIn, Mark.isHeader]

theorem rowsAhead_header (h : Header) (t : Text) : rowsAhead (.header h t :: ms) = [] := by
  simp [rowsAhead, rowsIn, Mark.isHeader]

end

theorem blocksAhead_examples {s : Section} (hs : s.header = .examples) (ss : List Section) :
    blocksAhead (s :: ss) = s :: blocksAhead ss := by
  simp [blocksAhead, Section.isExamples, hs]

theorem constructs_examples {s : Section} (hs : s.header = .examples) (ss : List Section) :
    constructs (s :: ss) = constructs ss := by
  simp [constructs, hs]

theorem blocksAhead_construct {s : Section} (hs : s.header = .scenario ∨ s.header = .outline)
    (ss : List Section) : blocksAhead (s :: ss) = [] := by
  rcases hs with h | h <;> simp [blocksAhead, Section.isExamples, h]

theorem constructs_construct {s : Section} (hs : s.header = .scenario ∨ s.header = .outline)
    (ss : List Section) : constructs (s :: ss) = ⟨s, blocksAhead ss⟩ :: constructs ss := by
  rw [constructs, if_pos hs]

end GherkinIndex
