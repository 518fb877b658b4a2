import GherkinIndex.Line
import GherkinIndex.Proofs.Text.Digits
import GherkinIndex.Proofs.Text.Trim

/-! The kinds of lines exclude each other.

    Behind its blanks a line of each kind begins in a way of its own, and of two keywords with a colon
    behind them at most one begins a line. So at most one recogniser accepts a line, and it does not
    matter in which order they are asked.

        " or backtick      doc-string fence
        @                  tags
        |                  table row
        anything else      a keyword up to the first colon: one of four headers, or none

    All that is needed of a keyword table is that keywords begin with anything else, have no colon in
    them, and name one kind of header each. -/

namespace GherkinIndex

/-! ### Keyword tables -/

/-- A character that begins neither a fence nor tags, a row or a comment, and is not blank. -/
def beginsKeyword (c : Char) : Bool :=
  !Text.isBlank c && ['"', '\x60', '@', '|', '#'].all (c != ·)

/-- Keywords begin like no other line, have no colon in them and name one kind of header each. -/
structure Locale.Unambiguous (l : Locale) : Prop where
  begins : ∀ h, ∀ k ∈ l.spellings h, ∃ c t, k = c :: t ∧ beginsKeyword c = true
  colon : ∀ h, ∀ k ∈ l.spellings h, ':' ∉ k
  apart : ∀ h h' k, k ∈ l.spellings h → k ∈ l.spellings h' → h = h'

/-- The kinds of header. -/
def Header.kinds : List Header := [.feature, .scenario, .outline, .examples]

theorem Header.mem_kinds (h : Header) : h ∈ kinds := by
  cases h <;> decide

theorem Locale.unambiguous_of_mem {l : Locale} (hl : l ∈ all) : l.Unambiguous := by
  have htable : ∀ l ∈ all, ∀ h ∈ Header.kinds, ∀ k ∈ l.spellings h,
      k.head?.any beginsKeyword = true ∧ ':' ∉ k ∧
        ∀ h' ∈ Header.kinds, k ∈ l.spellings h' → h = h' := by decide +kernel
  refine ⟨fun h k hk => ?_, fun h k hk => ?_, fun h h' k hk hk' => ?_⟩
  · have hhead := (htable l hl h h.mem_kinds k hk).1
    cases k with
    | nil => cases hhead
    | cons c t => exact ⟨c, t, rfl, hhead⟩
  · exact (htable l hl h h.mem_kinds k hk).2.1
  · exact (htable l hl h h.mem_kinds k hk).2.2 h' h'.mem_kinds hk'

/-- A captured line starts with a keyword and a colon, blanks apart. -/
theorem keyword_of_captureHeader {ks : List Text} {x t : Text}
    (h : captureHeader ks x = some t) : ∃ k ∈ ks, k ++ [':'] <+: Text.trimStart x := by
  simp only [captureHeader, Option.ite_none_right_eq_some, List.any_eq_true,
    List.isPrefixOf_iff_prefix] at h
  exact h.1

/-- The keyword of a line is what stands before its first colon. -/
theorem takeWhile_of_keyword {k body : Text} (hk : ':' ∉ k) (h : k ++ [':'] <+: body) :
    body.takeWhile (· != ':') = k := by
  obtain ⟨rest, rfl⟩ := h
  rw [List.append_assoc]
  exact Text.takeWhile_run (Text.bne_of_not_mem hk) (by simp)

/-- Of two keywords with a colon behind them at most one begins a line. -/
theorem header_unique {l : Locale} (hl : l.Unambiguous) {h h' : Header} {x t t' : Text}
    (ht : captureHeader (l.spellings h) x = some t)
    (ht' : captureHeader (l.spellings h') x = some t') : h = h' := by
  obtain ⟨k, hk, hx⟩ := keyword_of_captureHeader ht
  obtain ⟨k', hk', hx'⟩ := keyword_of_captureHeader ht'
  have hsame : k = k' :=
    (takeWhile_of_keyword (hl.colon h k hk) hx).symm.trans
      (takeWhile_of_keyword (hl.colon h' k' hk') hx')
  exact hl.apart h h' k hk (hsame ▸ hk')

namespace Line

/-! ### Recognisers -/

/-- The tests of a line, one for each kind. -/
inductive Recogniser where
  | fence | tags | header (h : Header) | row
  deriving DecidableEq

namespace Recogniser

/-- The line as one test reads it. -/
def read (l : Locale) (x : Text) : Recogniser → Option Line
  | fence => (delimiter? x).map .fence
  | tags => (tags? x).map (.mark ∘ .tags)
  | header h => (captureHeader (l.spellings h) x).map (.mark ∘ .header h)
  | row => (row? x).map (.mark ∘ .row)

/-- The tests in the order in which they are tried. -/
def all : List Recogniser := fence :: tags :: (Header.kinds.map header ++ [row])

theorem mem_all (r : Recogniser) : r ∈ all := by
  cases r with
  | header h => cases h <;> decide
  | fence => decide
  | tags => decide
  | row => decide

theorem findSome?_headers (l : Locale) (x : Text) :
    (Header.kinds.map header).findSome? (read l x) = (header? l x).map .mark := by
  rw [List.findSome?_map, header?, List.map_findSome?]
  refine congrArg (List.findSome? · Header.kinds) (funext fun h => ?_)
  rw [Function.comp_apply, read, Function.comp_apply, Option.map_map]

theorem findSome?_all (l : Locale) (x : Text) : all.findSome? (read l x) = classify l x := by
  rw [all, List.findSome?_cons, List.findSome?_cons, List.findSome?_append, findSome?_headers,
    List.findSome?_singleton, classify, read, read, read]
  cases delimiter? x <;> cases tags? x <;> cases header? l x <;> rfl

/-! ### Beginnings -/

/-- A line of this kind may begin with this character, blanks apart. -/
def Begins : Recogniser → Char → Prop
  | fence, c => c = '"' ∨ c = '\x60'
  | tags, c => c = '@'
  | header _, c => beginsKeyword c = true
  | row, c => c = '|'

/-- Only headers begin alike. -/
theorem Begins.eq_or_headers {r r' : Recogniser} {c : Char} (h : r.Begins c) (h' : r'.Begins c) :
    r = r' ∨ ∃ k k', r = header k ∧ r' = header k' := by
  cases r <;> cases r' <;> simp_all [Begins, beginsKeyword]

theorem begins_of_delimiter? {x : Text} {d : Delimiter} (h : delimiter? x = some d) :
    ∃ c, (Text.trimStart x).head? = some c ∧ fence.Begins c := by
  obtain ⟨f, -, hf⟩ := List.exists_of_findSome?_eq_some h
  refine ⟨f.char, ?_, ?_⟩
  · rw [← Text.head?_trim]
    cases hp : (List.replicate 3 f.char).isPrefixOf? (Text.trim x) with
    | none =>
      rw [delimiterOf, hp] at hf
      cases hf
    | some rest =>
      rw [← List.isPrefixOf?_eq_some_iff_append_eq.1 hp]
      rfl
  · cases f with
    | quotes => exact .inl rfl
    | backticks => exact .inr rfl

theorem begins_of_tags? {x : Text} {ts : List Text} (h : tags? x = some ts) :
    ∃ c, (Text.trimStart x).head? = some c ∧ tags.Begins c := by
  rw [tags?, ← Text.words_trimStart] at h
  cases hx : Text.trimStart x with
  | nil => simp [hx, Text.words] at h
  | cons c t =>
    have hc : Text.isBlank c = false := Text.not_blank_of_head?_trimStart (by rw [hx]; rfl)
    obtain ⟨w, ws, hwords⟩ := Text.words_cons_of_not_blank hc t
    refine ⟨c, rfl, ?_⟩
    rw [hx, hwords, List.takeWhile_cons] at h
    by_cases hhash : c = '#'
    · simp [hhash] at h
    · simp_all [Begins]

theorem begins_of_captureHeader {l : Locale} (hl : l.Unambiguous) {h : Header} {x t : Text}
    (ht : captureHeader (l.spellings h) x = some t) :
    ∃ c, (Text.trimStart x).head? = some c ∧ (header h).Begins c := by
  obtain ⟨k, hk, rest, hrest⟩ := keyword_of_captureHeader ht
  obtain ⟨c, k, rfl, hc⟩ := hl.begins h k hk
  exact ⟨c, by rw [← hrest]; rfl, hc⟩

theorem begins_of_row? {x t : Text} (h : row? x = some t) :
    ∃ c, (Text.trimStart x).head? = some c ∧ row.Begins c := by
  simp only [row?, Option.ite_none_right_eq_some, Bool.and_eq_true, beq_iff_eq] at h
  exact ⟨'|', by rw [← Text.head?_trim]; exact h.1.1.2, rfl⟩

/-- A line that a test accepts begins as lines of its kind do. -/
theorem begins_of_read {l : Locale} (hl : l.Unambiguous) {x : Text} {r : Recogniser}
    (h : (read l x r).isSome = true) :
    ∃ c, (Text.trimStart x).head? = some c ∧ r.Begins c := by
  obtain ⟨k, hk⟩ := Option.isSome_iff_exists.1 h
  cases r with
  | fence =>
    obtain ⟨d, hd, -⟩ := Option.map_eq_some_iff.1 hk
    exact begins_of_delimiter? hd
  | tags =>
    obtain ⟨ts, hts, -⟩ := Option.map_eq_some_iff.1 hk
    exact begins_of_tags? hts
  | header h =>
    obtain ⟨t, ht, -⟩ := Option.map_eq_some_iff.1 hk
    exact begins_of_captureHeader hl ht
  | row =>
    obtain ⟨t, ht, -⟩ := Option.map_eq_some_iff.1 hk
    exact begins_of_row? ht

/-! ### One kind at most -/

/-- No two tests accept one line. -/
theorem read_exclusive {l : Locale} (hl : l.Unambiguous) {x : Text} {r r' : Recogniser}
    (h : (read l x r).isSome = true) (h' : (read l x r').isSome = true) : r = r' := by
  obtain ⟨c, hc, hr⟩ := begins_of_read hl h
  obtain ⟨c', hc', hr'⟩ := begins_of_read hl h'
  obtain rfl : c = c' := Option.some.inj (hc.symm.trans hc')
  rcases hr.eq_or_headers hr' with heq | ⟨k, k', rfl, rfl⟩
  · exact heq
  · rw [read, Option.isSome_map, Option.isSome_iff_exists] at h h'
    obtain ⟨t, ht⟩ := h
    obtain ⟨t', ht'⟩ := h'
    rw [header_unique hl ht ht']

/-- Where at most one of some answers is there, it is found wherever it stands. -/
theorem findSome?_eq_some_iff {rs : List Recogniser} {f : Recogniser → Option Line}
    (hf : ∀ r r', (f r).isSome = true → (f r').isSome = true → r = r') {k : Line} :
    rs.findSome? f = some k ↔ ∃ r ∈ rs, f r = some k := by
  constructor
  · exact List.exists_of_findSome?_eq_some
  · rintro ⟨r, hr, hk⟩
    have hsome : (rs.findSome? f).isSome = true :=
      List.findSome?_isSome_iff.2 ⟨r, hr, by rw [hk]; rfl⟩
    obtain ⟨k', hk'⟩ := Option.isSome_iff_exists.1 hsome
    obtain ⟨r', -, hr'⟩ := List.exists_of_findSome?_eq_some hk'
    have hsame : r = r' := hf r r' (by rw [hk]; rfl) (by rw [hr']; rfl)
    rw [hk', ← hr', ← hsame, hk]

/-- A line is of a kind exactly if the test of that kind accepts it. -/
theorem classify_eq_some_iff {l : Locale} (hl : l.Unambiguous) {x : Text} {k : Line} :
    classify l x = some k ↔ ∃ r, read l x r = some k := by
  rw [← findSome?_all, findSome?_eq_some_iff fun _ _ => read_exclusive hl]
  exact exists_congr fun r => and_iff_right r.mem_all

theorem findSome?_perm {l : Locale} (hl : l.Unambiguous) (x : Text) {rs : List Recogniser}
    (hrs : rs.Perm all) : rs.findSome? (read l x) = classify l x := by
  refine Option.ext fun k => ?_
  rw [findSome?_eq_some_iff fun _ _ => read_exclusive hl, ← findSome?_all,
    findSome?_eq_some_iff fun _ _ => read_exclusive hl]
  exact exists_congr fun r => and_congr_left' hrs.mem_iff

end Recogniser

open Recogniser

/-! ### Headers -/

theorem captureHeader_keyword {l : Locale} (hl : l.Unambiguous) {h : Header} {k : Text}
    (hk : k ∈ l.spellings h) {w : Text} (hw : ∀ c ∈ w, Text.isBlank c = true) (t : Text) :
    captureHeader (l.spellings h) (w ++ k ++ ':' :: t) = some (k ++ ':' :: Text.trimEnd t) := by
  have hbody : Text.trimStart (w ++ k ++ ':' :: t) = k ++ ':' :: t := by
    obtain ⟨c, k, rfl, hc⟩ := hl.begins h k hk
    have hblank : Text.isBlank c = false := by
      rw [beginsKeyword, Bool.and_eq_true, Bool.not_eq_true'] at hc
      exact hc.1
    rw [List.append_assoc, Text.trimStart_append_of_blank hw, List.cons_append,
      Text.trimStart_cons_of_not_blank hblank]
  have hany : (l.spellings h).any (fun k' => (k' ++ [':']).isPrefixOf (k ++ ':' :: t)) = true := by
    rw [List.any_eq_true]
    refine ⟨k, hk, ?_⟩
    rw [List.isPrefixOf_iff_prefix, List.append_cons k ':' t]
    exact List.prefix_append _ _
  rw [captureHeader, hbody, if_pos hany, Text.trimEnd_append_concat k (by decide)]

/-- CORRECT (kinds of lines): in every language of the table no line is accepted by two of the seven
    tests, so a line is classified alike in whatever order they are tried. A keyword with a colon
    behind it, whatever blanks come before and whatever title behind, is a header of its own kind and
    has its trimmed line as its text. -/
theorem kinds_exclusive {l : Locale} (hl : l ∈ Locale.all) :
    (∀ x r r', (read l x r).isSome = true → (read l x r').isSome = true → r = r') ∧
      (∀ x (rs : List Recogniser), rs.Perm Recogniser.all →
        rs.findSome? (read l x) = classify l x) ∧
      ∀ h, ∀ k ∈ l.spellings h, ∀ w t : Text, (∀ c ∈ w, Text.isBlank c = true) →
        classify l (w ++ k ++ ':' :: t) =
          some (.mark (.header h (k ++ ':' :: Text.trimEnd t))) := by
  have hclear := Locale.unambiguous_of_mem hl
  refine ⟨fun _ _ _ => read_exclusive hclear, fun x _ => findSome?_perm hclear x, ?_⟩
  intro h k hk w t hw
  refine (classify_eq_some_iff hclear).2 ⟨.header h, ?_⟩
  rw [Recogniser.read, captureHeader_keyword hclear hk hw]
  rfl

/-- A keyword that starts with one of another kind, in a line that ends like a row. -/
theorem kinds_exclusive_japanese :
    Locale.japanese ∈ Locale.all ∧
      "シナリオテンプレ".toList ∈ Locale.japanese.spellings .outline ∧
      (∀ c ∈ ['\t', '\u3000'], Text.isBlank c = true) ∧
      Recogniser.all.reverse.findSome? (read .japanese
          (['\t', '\u3000'] ++ "シナリオテンプレ".toList ++ ':' :: "機能:| ".toList)) =
        some (.mark (.header .outline ("シナリオテンプレ".toList ++ ':' :: "機能:|".toList))) := by
  have hl : Locale.japanese ∈ Locale.all := by simp [Locale.all]
  have hk : "シナリオテンプレ".toList ∈ Locale.japanese.spellings .outline := by decide +kernel
  have hw : ∀ c ∈ ['\t', '\u3000'], Text.isBlank c = true := List.all_eq_true.1 rfl
  have hend : Text.trimEnd "機能:| ".toList = "機能:|".toList := by decide
  obtain ⟨-, horder, hheader⟩ := kinds_exclusive hl
  refine ⟨hl, hk, hw, ?_⟩
  rw [horder _ _ (List.reverse_perm _), hheader .outline _ hk _ _ hw, hend]

end Line
end GherkinIndex
