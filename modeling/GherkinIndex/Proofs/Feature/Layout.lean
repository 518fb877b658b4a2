import GherkinIndex.Proofs.Feature.Visible
import GherkinIndex.Proofs.Text.Lines

/-! Layout.

    Each reader of a line takes blanks away in its own manner: the whole line is trimmed for a fence
    and a row, the start only for a header, and a language may have blanks around each of its parts.
    Still all of them read the same from the trimmed line. So a file means what its trimmed lines
    mean, whatever its indentation and its line ends.

        "  Feature: f\t\r\n\tScenario: s"      and      "Feature: f\nScenario: s\n" -/

namespace GherkinIndex

/-! ### One line -/

theorem captureHeader_trim (spellings : List Text) (x : Text) :
    captureHeader spellings (Text.trim x) = captureHeader spellings x := by
  have hcolon : Text.isBlank ':' = false := by decide
  have hkeyword (k : Text) :
      (k ++ [':']).isPrefixOf (Text.trim x) = (k ++ [':']).isPrefixOf (Text.trimStart x) :=
    Text.isPrefixOf_trimEnd k hcolon _
  simp only [captureHeader, Text.trimStart_trim, Text.trimEnd_trim, hkeyword]
  rfl

namespace Line

theorem delimiter?_trim (x : Text) : delimiter? (Text.trim x) = delimiter? x := by
  rw [delimiter?, Text.trim_trim, ← delimiter?]

theorem tags?_trim (x : Text) : tags? (Text.trim x) = tags? x := by
  rw [tags?, Text.words_trim, ← tags?]

theorem row?_trim (x : Text) : row? (Text.trim x) = row? x := by
  rw [row?, Text.trim_trim, ← row?]

theorem header?_trim (l : Locale) (x : Text) : header? l (Text.trim x) = header? l x := by
  simp only [header?, captureHeader_trim]

/-- A line means what its trimmed middle means, in every language. -/
theorem classify_trim (l : Locale) (x : Text) : classify l (Text.trim x) = classify l x := by
  simp only [classify, delimiter?_trim, tags?_trim, header?_trim, row?_trim]

end Line

namespace Locale

/-- What follows a part of a declaration, when the end is trimmed first. -/
theorem after_trimEnd (p : Text) {c : Char} (hc : Text.isBlank c = false) (t : Text) :
    (p ++ [c]).isPrefixOf? (Text.trimStart (Text.trimEnd t)) =
      ((p ++ [c]).isPrefixOf? (Text.trimStart t)).map Text.trimEnd := by
  rw [Text.trimStart_trimEnd, Text.trim, Text.isPrefixOf?_trimEnd p hc]

theorem declared?_trim (x : Text) : declared? (Text.trim x) = declared? x := by
  have hhash : ['#'].isPrefixOf? (Text.trimStart (Text.trim x)) =
      (['#'].isPrefixOf? (Text.trimStart x)).map Text.trimEnd := by
    rw [Text.trimStart_trim, ← Text.trimStart_trimEnd]
    exact after_trimEnd [] (c := '#') (by decide) x
  have hword (t : Text) : "language".toList.isPrefixOf? (Text.trimStart (Text.trimEnd t)) =
      ("language".toList.isPrefixOf? (Text.trimStart t)).map Text.trimEnd :=
    after_trimEnd "languag".toList (c := 'e') (by decide) t
  have hcolon (t : Text) : [':'].isPrefixOf? (Text.trimStart (Text.trimEnd t)) =
      ([':'].isPrefixOf? (Text.trimStart t)).map Text.trimEnd := after_trimEnd [] (c := ':') (by decide) t
  -- each part hands its rest on, trimmed at the end, and the code is trimmed anyway
  simp only [declared?, Option.bind_eq_bind, hhash, hword, hcolon, Option.bind_map,
    Function.comp_def, Text.trim_trimEnd]

theorem select_map_trim (line : Option Text) : select (line.map Text.trim) = select line := by
  have hdeclared : (line.map Text.trim).bind declared? = line.bind declared? := by
    rw [Option.bind_map]
    exact congrArg line.bind (funext declared?_trim)
  rw [select, hdeclared, ← select]

end Locale

/-! ### A file -/

theorem Fence.step_trim (opened : Option Fence) (x : Text) :
    Fence.step opened (Text.trim x) = Fence.step opened x := by
  simp only [Fence.step, Line.delimiter?_trim]

/-- The marks of trimmed lines. -/
theorem visible_map_trim (l : Locale) (opened : Option Fence) (n : Nat) (xs : List Text) :
    visible l opened n (xs.map Text.trim) = visible l opened n xs := by
  induction xs generalizing opened n with
  | nil => rfl
  | cons x xs ih =>
    rw [List.map_cons, visible_cons, visible_cons, Line.mark?, Line.classify_trim, Fence.step_trim,
      ih, Line.mark?]

theorem parseLines_map_trim (f : TagFilter) (path : Option Text) (xs : List Text) :
    parseLines f path (xs.map Text.trim) = parseLines f path xs := by
  have hfold (ys : List Text) :
      (ys.map Text.trim).foldl Fence.step none = ys.foldl Fence.step none := by
    simp only [List.foldl_map, Fence.step_trim]
  simp only [parseLines, Locale.choose, List.head?_map, Locale.select_map_trim, visible_map_trim,
    List.length_map, hfold]

/-- Lines that agree when trimmed make the same file. -/
theorem parseLines_congr {xs ys : List Text} (h : xs.map Text.trim = ys.map Text.trim)
    (f : TagFilter) (path : Option Text) : parseLines f path xs = parseLines f path ys := by
  rw [← parseLines_map_trim, h, parseLines_map_trim]

theorem fileLocale_congr {s t : Text}
    (h : (fileLines s).map Text.trim = (fileLines t).map Text.trim) :
    fileLocale s = fileLocale t := by
  have hselect (u : Text) : fileLocale u =
      (Locale.choose none ((fileLines u).map Text.trim).head?).1 := by
    rw [List.head?_map, Locale.choose, Locale.select_map_trim]
    rfl
  rw [hselect, h, ← hselect]

theorem map_trim_congr {xs ys : List Text} (h : xs.map Text.trimEnd = ys.map Text.trimEnd) :
    xs.map Text.trim = ys.map Text.trim := by
  have htrim (zs : List Text) : zs.map Text.trim = (zs.map Text.trimEnd).map Text.trim := by simp
  rw [htrim, h, ← htrim]

/-! ### Two texts -/

section
variable (f : TagFilter) (path : Option Text)

theorem parse_unmarked {t : Text} (ht : t.Unmarked) :
    parse f path t = parseLines f path (Text.lines t) := by
  rw [parse, Text.dropMark_of_unmarked ht]

theorem parse_congr {s t : Text} (hs : s.Unmarked) (ht : t.Unmarked)
    (h : (Text.lines s).map Text.trim = (Text.lines t).map Text.trim) :
    parse f path s = parse f path t := by
  rw [parse_unmarked f path hs, parse_unmarked f path ht, parseLines_congr h]

theorem parse_withReturns {t : Text} (ht : t.Unmarked) :
    parse f path t.withReturns = parse f path t := by
  refine parse_congr f path (Text.unmarked_withReturns ht) ht (map_trim_congr ?_)
  rw [Text.map_trimEnd_lines, Text.map_trimEnd_pieces_withReturns, ← Text.map_trimEnd_lines]

theorem parse_feed {t : Text} (ht : t.Unmarked) (hlast : t.getLast? ≠ some '\n') :
    parse f path (t ++ ['\n']) = parse f path t := by
  by_cases hnil : t = []
  · -- no line and a blank one: either way line one lacks a feature header
    subst hnil
    rfl
  · refine parse_congr f path (Text.unmarked_feed ht) ht (map_trim_congr ?_)
    rw [Text.map_trimEnd_lines, Text.map_trimEnd_pieces_feed hnil hlast, ← Text.map_trimEnd_lines]

end

/-- CORRECT (layout): two texts without a byte-order mark whose trimmed lines agree choose the same
    keywords and give the same tree, or the same error on the same line, under every filter. So it
    does not matter whether a carriage return stands before each line feed, nor whether a line feed
    ends the last line. A byte-order mark put before a text that has none changes nothing. -/
theorem parse_of_trimmed_lines (f : TagFilter) (path : Option Text) :
    (∀ s t : Text, s.Unmarked → t.Unmarked →
        (Text.lines s).map Text.trim = (Text.lines t).map Text.trim →
        parse f path s = parse f path t ∧ fileLocale s = fileLocale t) ∧
      (∀ t : Text, t.Unmarked → parse f path t.withReturns = parse f path t ∧
        (t.getLast? ≠ some '\n' → parse f path (t ++ ['\n']) = parse f path t)) ∧
      ∀ t : Text, t.Unmarked → parse f path ('\uFEFF' :: t) = parse f path t := by
  refine ⟨fun s t hs ht h => ⟨parse_congr f path hs ht h, ?_⟩, fun t ht => ⟨?_, ?_⟩, ?_⟩
  · apply fileLocale_congr
    rwa [fileLines, Text.dropMark_of_unmarked hs, fileLines, Text.dropMark_of_unmarked ht]
  · exact parse_withReturns f path ht
  · exact parse_feed f path ht
  · intro t ht
    rw [parse, Text.dropMark_mark, parse_unmarked f path ht]

/-- A file in French with tabs, trailing blanks and mixed line ends, the last one missing. -/
def looseFile : Text :=
  "\t# language: fr \r\n Fonctionnalité: f  \n\t@a @b\r\n\u3000Scénario: s".toList

def tidyFile : Text := "# language: fr\nFonctionnalité: f\n@a @b\nScénario: s\n".toList

theorem parse_of_trimmed_lines_looseFile :
    looseFile.Unmarked ∧ tidyFile.Unmarked ∧
      (Text.lines looseFile).map Text.trim = (Text.lines tidyFile).map Text.trim ∧
      looseFile.getLast? ≠ some '\n' ∧
      ∃ n, (parse .unfiltered none tidyFile).result = .ok n ∧
        n.childTexts = ["Scénario: s".toList] ∧
        ∀ t ∈ [looseFile, looseFile.withReturns, looseFile ++ ['\n'], '\uFEFF' :: looseFile],
          (parse .unfiltered none t).result = .ok n := by
  have hloose : looseFile.Unmarked := by decide
  have htidy : tidyFile.Unmarked := by decide
  have hlines : (Text.lines looseFile).map Text.trim = (Text.lines tidyFile).map Text.trim := by
    decide
  have hlast : looseFile.getLast? ≠ some '\n' := by decide
  have hread : ∃ n, (parse .unfiltered none tidyFile).result = .ok n ∧
      n.childTexts = ["Scénario: s".toList] := ⟨_, rfl, rfl⟩
  obtain ⟨n, hn, htexts⟩ := hread
  obtain ⟨hcongr, hends, hmark⟩ := parse_of_trimmed_lines .unfiltered none
  have hsame := (hcongr looseFile tidyFile hloose htidy hlines).1
  refine ⟨hloose, htidy, hlines, hlast, n, hn, htexts, ?_⟩
  simp only [List.forall_mem_cons, (hends looseFile hloose).1, (hends looseFile hloose).2 hlast,
    hmark looseFile hloose, hsame, hn]
  simp

end GherkinIndex
