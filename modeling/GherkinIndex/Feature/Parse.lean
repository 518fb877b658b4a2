import GherkinIndex.Feature.Draft

/-! From the text of a file to its tree.

    The first line may choose a language; a language without keywords falls back to English. The
    marks outside doc strings are then read in order, and the end of the file completes whatever is
    still held. -/

namespace GherkinIndex

/-- The tree of a file, or why it has none, and the events on the way. -/
structure Parsed where
  result : Except ParseError Node
  log : List Event

/-- The keywords of a file, and the event of having fallen back to English ones. -/
def Locale.choose (path : Option Text) (firstLine : Option Text) : Locale × List Event :=
  match Locale.select firstLine with
  | .ok l => (l, [])
  | .error e => (.english, [.englishFallback path e.message])

/-- Completes a reading at the end of a file of `count` lines. -/
def Reading.finish (f : TagFilter) (path : Option Text) (count : Nat) (opened : Option Fence)
    (r : Reading) : Parsed :=
  let unclosed : List Event := if opened.isSome then [.docStringLeftOpen path] else []
  match r.draft with
  | none => ⟨.error ⟨max 1 count, .missingFeature⟩, r.log ++ unclosed⟩
  | some d =>
    let (feature, events) := d.settle f
    ⟨.ok feature, r.log ++ events ++ unclosed⟩

/-- The tree of the lines of a file, constructs that the filter rejects left out. -/
def parseLines (f : TagFilter) (path : Option Text) (lines : List Text) : Parsed :=
  let (l, note) := Locale.choose path lines.head?
  match Reading.run f path { log := note } (visible l none 1 lines) with
  | (r, some e) => ⟨.error e, r.log⟩
  | (r, none) => r.finish f path lines.length (lines.foldl Fence.step none)

/-- The tree of a text; one byte-order mark at its start is not part of the first line. -/
def parse (f : TagFilter) (path : Option Text) (text : Text) : Parsed :=
  parseLines f path (Text.lines (Text.dropMark text))

end GherkinIndex
