import GherkinIndex.Feature.File
import GherkinIndex.Proofs.Disk.Way
import GherkinIndex.Proofs.Text.Lines

/-! A file and its text.

    A file is read and its text parsed, and both of them leave out a byte-order mark at the start. So
    the tree of a file is the tree of its text with one mark less, and a text that begins with two
    marks gives another tree than its file.

        text     M a         M M a
        file     read a      read M a ──▶ parse a
        text     parse a     parse M a              -- M the mark                    -/

namespace GherkinIndex

/-- The answer for a text as the answer for a file: an error names the file. -/
def Parsed.inFile (shown : Text) (p : Parsed) : ParsedFile :=
  ⟨p.result.mapError (.refused shown), p.log⟩

section
variable {d : Disk} {path content : Text} (h : d.Holds path content)
include h

theorem readFeature_of_holds : readFeature d path = .ok (Text.dropMark content) := by
  rw [readFeature, Disk.readText_of_holds h]
  rfl

theorem parseFile_of_holds (f : TagFilter) (root : Text) :
    parseFile f root d path =
      (parse f (some (Path.relativeTo root path)) (Text.dropMark content)).inFile
        (Path.relativeTo root path) := by
  rcases hparse : parse f (some (Path.relativeTo root path)) (Text.dropMark content) with
    ⟨cause | n, log⟩
  · simp only [parseFile, readFeature_of_holds h, hparse]
    rfl
  · simp only [parseFile, readFeature_of_holds h, hparse]
    rfl

end

/-- CORRECT (file and text): a file gives what its text gives, one mark at its start left out: the
    same tree or the same error on the same line, and the same events. The text itself gives that
    too, unless it begins with two marks. -/
theorem parseFile_eq_parse_of_holds (f : TagFilter) (root : Text) {d : Disk} {path content : Text}
    (h : d.Holds path content) :
    (parseFile f root d path =
      (parse f (some (Path.relativeTo root path)) (Text.dropMark content)).inFile
        (Path.relativeTo root path)) ∧
    ((Text.dropMark content).Unmarked → parseFile f root d path =
      (parse f (some (Path.relativeTo root path)) content).inFile (Path.relativeTo root path)) := by
  refine ⟨parseFile_of_holds h f root, fun hmark => ?_⟩
  rw [parseFile_of_holds h, parse, parse, Text.dropMark_of_unmarked hmark]

/-- A disk with one feature file. -/
def Disk.ofFeature (content : Text) : Disk :=
  { items := [(["a.feature".toList], .file (String.ofList content).toUTF8)] }

theorem Disk.holds_ofFeature (content : Text) :
    (Disk.ofFeature content).Holds "a.feature".toList content :=
  ⟨["a.feature".toList], rfl, rfl⟩

/-- A file of one line behind some byte-order marks. -/
def markedFile (marks : Nat) : Text := List.replicate marks '\uFEFF' ++ "Feature: f\n".toList

theorem parseFile_eq_parse_of_markedFile :
    (Disk.ofFeature (markedFile 1)).Holds "a.feature".toList (markedFile 1) ∧
      (Text.dropMark (markedFile 1)).Unmarked ∧
      ∃ n, (parse .unfiltered (some "a.feature".toList) (markedFile 1)).result = .ok n ∧
        n.text = "Feature: f".toList ∧
        (parseFile .unfiltered Path.defaultRoot (Disk.ofFeature (markedFile 1))
          "a.feature".toList).result = .ok n := by
  have hholds := Disk.holds_ofFeature (markedFile 1)
  have hmark : (Text.dropMark (markedFile 1)).Unmarked := by decide
  have hread : ∃ n, (parse .unfiltered (some "a.feature".toList) (markedFile 1)).result = .ok n ∧
      n.text = "Feature: f".toList := ⟨_, rfl, rfl⟩
  obtain ⟨n, hn, htext⟩ := hread
  have hshown : Path.relativeTo Path.defaultRoot "a.feature".toList = "a.feature".toList := by
    decide
  refine ⟨hholds, hmark, n, hn, htext, ?_⟩
  rw [(parseFile_eq_parse_of_holds .unfiltered Path.defaultRoot hholds).2 hmark, hshown,
    Parsed.inFile, hn]
  rfl

/-- Two marks: the file has a tree, its text has none, for no header stands on its first line. -/
theorem two_marks_refused_in_text_only :
    (Disk.ofFeature (markedFile 2)).Holds "a.feature".toList (markedFile 2) ∧
      (∃ n, (parseFile .unfiltered Path.defaultRoot (Disk.ofFeature (markedFile 2))
        "a.feature".toList).result = .ok n) ∧
      (parse .unfiltered (some "a.feature".toList) (markedFile 2)).result =
        .error ⟨1, .missingFeature⟩ := by
  have hholds := Disk.holds_ofFeature (markedFile 2)
  refine ⟨hholds, ?_, rfl⟩
  rw [parseFile_of_holds hholds]
  exact ⟨_, rfl⟩

end GherkinIndex
