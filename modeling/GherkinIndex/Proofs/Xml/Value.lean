import Mathlib.Data.List.Basic
import GherkinIndex.Xml.Element

/-! Reading the value of an attribute.

    A literal reader takes every character as it stands. A conforming one first turns every line end
    into a line feed and then takes a tab or a line feed for a blank. Both put characters in the
    place of references, and neither touches these again.

        written       a &lt; b  ⇥  c  &#x9;  d
        literal       a < b  ⇥  c  ⇥  d
        conforming    a < b     c  ⇥  d                                              -/

namespace GherkinIndex.Xml

/-! ### The reader -/

inductive Reading where
  | literal | conforming
  deriving DecidableEq, Repr

/-- Line ends as line feeds: a carriage return ends a line, alone or with a line feed behind it. -/
def lineEnds : Text → Text
  | '\r' :: '\n' :: t => '\n' :: lineEnds t
  | '\r' :: t => '\n' :: lineEnds t
  | c :: t => c :: lineEnds t
  | [] => []

/-- The characters that lay a document out and mean no more than a blank in a value. -/
def isLayout (c : Char) : Bool := c == '\t' || c == '\n' || c == '\r'

namespace Reading

/-- The document as it is read. -/
def prepared : Reading → Text → Text
  | literal, t => t
  | conforming, t => lineEnds t

/-- What a character of a value is taken for if it is no part of a reference. -/
def takes : Reading → Char → Char
  | literal, c => c
  | conforming, c => if isLayout c then ' ' else c

/-- What becomes of a character that is written and read; U+FFFD stands for what cannot be
    written. -/
def receives (m : Reading) (c : Char) : Char := if isChar c then m.takes c else '\uFFFD'

/-- What becomes of a text that is written and read. -/
def received (m : Reading) (t : Text) : Text := (m.prepared t).map m.receives

end Reading

/-- The text with U+FFFD for every character that cannot be written; a literal reader receives
    this. -/
def cleaned (t : Text) : Text := t.map fun c => if isChar c then c else '\uFFFD'

/-- The character with a code point, if it may stand in a document. -/
def numbered (n : Nat) : Option Char := if isChar (Char.ofNat n) then some (Char.ofNat n) else none

/-- What the reference with a name stands for. -/
def referred : Text → Option Char
  | ['a', 'm', 'p'] => some '&'
  | ['l', 't'] => some '<'
  | ['g', 't'] => some '>'
  | ['q', 'u', 'o', 't'] => some '"'
  | ['a', 'p', 'o', 's'] => some '\''
  | '#' :: 'x' :: digits =>
    (digits.mapM Text.hexValue).bind fun ds => numbered (ds.foldl (fun n d => n * 16 + d) 0)
  | '#' :: digits => (Text.readNat digits).bind numbered
  | _ => none

/-- A value up to its closing quote, and the rest behind it. In the middle of a reference the first
    argument is the part of the name that has been read. -/
def readValue (m : Reading) : Option Text → Text → Option (Text × Text)
  | _, [] => none
  | some name, ';' :: t => match referred name with
    | none => none
    | some c => (readValue m none t).map fun (v, rest) => (c :: v, rest)
  | some name, c :: t => readValue m (some (name ++ [c])) t
  | none, '"' :: t => some ([], t)
  | none, '<' :: _ => none
  | none, '&' :: t => readValue m (some []) t
  | none, c :: t =>
    if isChar c then (readValue m none t).map fun (v, rest) => (m.takes c :: v, rest) else none

/-! ### Values read back -/

section
variable (m : Reading) (t : Text)

theorem readValue_plain {c : Char} (hc : isChar c = true) (hquote : c ≠ '"') (hless : c ≠ '<')
    (hamp : c ≠ '&') :
    readValue m none (c :: t) =
      (readValue m none t).map fun (v, rest) => (m.takes c :: v, rest) := by
  rw [readValue, if_pos hc]
  · exact hquote
  · exact hless
  · exact hamp

/-- A character reads back from the way it stands in a value. -/
theorem readValue_escapeChar (c : Char) :
    readValue m none (escapeChar c ++ t) =
      (readValue m none t).map fun (v, rest) => (m.receives c :: v, rest) := by
  have hmarkup : m.receives '&' = '&' ∧ m.receives '<' = '<' ∧ m.receives '>' = '>' ∧
      m.receives '"' = '"' ∧ m.receives '\'' = '\'' := by
    cases m <;> decide
  obtain ⟨hamp, hless, hgreater, hquote, hapostrophe⟩ := hmarkup
  unfold escapeChar
  split_ifs with h₁ h₂ h₃ h₄ h₅ h₆
  · rw [h₁, hamp]
    rfl
  · rw [h₂, hless]
    rfl
  · rw [h₃, hgreater]
    rfl
  · rw [h₄, hquote]
    rfl
  · rw [h₅, hapostrophe]
    rfl
  · rw [Reading.receives, if_pos h₆]
    exact readValue_plain m t h₆ h₄ h₂ h₁
  · rw [Reading.receives, if_neg h₆]
    rfl

/-- A written value ends at the quote that closes it and nowhere before. -/
theorem readValue_escape (s : Text) :
    readValue m none (escape s ++ '"' :: t) = some (s.map m.receives, t) := by
  induction s with
  | nil => rfl
  | cons c s ih =>
    rw [escape, List.flatMap_cons, List.append_assoc, readValue_escapeChar, ← escape, ih]
    rfl

end

/-! ### Characters of a written value -/

/-- A written character is itself, if it is no markup, or part of a reference. -/
theorem mem_escapeChar {c d : Char} (hd : d ∈ escapeChar c) :
    (d = c ∧ c ∉ ['&', '<', '>', '"', '\'']) ∨ d ∈ "&amp;ltgquos#xFD".toList := by
  have href : ∀ w ∈ ["&amp;", "&lt;", "&gt;", "&quot;", "&apos;", "&#xFFFD;"],
      w.toList ⊆ "&amp;ltgquos#xFD".toList := by decide
  unfold escapeChar at hd
  split_ifs at hd with h₁ h₂ h₃ h₄ h₅ h₆
  · exact .inr (href "&amp;" (by decide) hd)
  · exact .inr (href "&lt;" (by decide) hd)
  · exact .inr (href "&gt;" (by decide) hd)
  · exact .inr (href "&quot;" (by decide) hd)
  · exact .inr (href "&apos;" (by decide) hd)
  · exact .inl ⟨List.mem_singleton.1 hd, by simp [h₁, h₂, h₃, h₄, h₅]⟩
  · exact .inr (href "&#xFFFD;" (by decide) hd)

theorem escapeChar_ne_nil (c : Char) : escapeChar c ≠ [] := by
  unfold escapeChar
  split_ifs <;> simp

/-- No character of a text closes its value or opens a tag. -/
theorem escape_closed {s : Text} {c : Char} (hc : c ∈ escape s) : c ≠ '"' ∧ c ≠ '<' ∧ c ≠ '>' := by
  obtain ⟨d, -, hd⟩ := List.mem_flatMap.1 hc
  rcases mem_escapeChar hd with ⟨rfl, hplain⟩ | href
  · simp only [List.mem_cons, not_or] at hplain
    exact ⟨hplain.2.2.2.1, hplain.2.1, hplain.2.2.1⟩
  · have hall : ("&amp;ltgquos#xFD".toList.all fun c => c ≠ '"' ∧ c ≠ '<' ∧ c ≠ '>') = true := by
      decide
    simpa using List.all_eq_true.1 hall c href

/-! ### Line ends -/

theorem lineEnds_cons {c : Char} (hc : c ≠ '\r') (t : Text) :
    lineEnds (c :: t) = c :: lineEnds t := by
  rw [lineEnds]
  · exact fun u h => absurd h hc
  · exact fun h => absurd h hc

/-- Line ends in a text without carriage returns are line feeds already. -/
theorem lineEnds_append {s : Text} (hs : '\r' ∉ s) (t : Text) :
    lineEnds (s ++ t) = s ++ lineEnds t := by
  induction s with
  | nil => rfl
  | cons c s ih =>
    rw [List.mem_cons, not_or] at hs
    rw [List.cons_append, lineEnds_cons (Ne.symm hs.1), ih hs.2, List.cons_append]

theorem not_mem_escapeChar {c d : Char} (hc : c ≠ d) (hd : d = '\r' ∨ d = '\n') :
    d ∉ escapeChar c := by
  intro hmem
  rcases mem_escapeChar hmem with ⟨rfl, -⟩ | href
  · exact hc rfl
  · rcases hd with rfl | rfl <;> simp at href

/-- Only a line feed is written so that it starts with one. -/
theorem escape_ne_newline {s : Text} (hs : ∀ u, s ≠ '\n' :: u) (t u : Text) :
    escape s ++ '"' :: t ≠ '\n' :: u := by
  cases s with
  | nil => simp [escape]
  | cons c s =>
    have hc : c ≠ '\n' := by
      rintro rfl
      exact hs s rfl
    obtain ⟨d, ds, hds⟩ := List.exists_cons_of_ne_nil (escapeChar_ne_nil c)
    have hd : d ∈ escapeChar c := by simp [hds]
    rw [escape, List.flatMap_cons, hds]
    simp only [List.cons_append, ne_eq, List.cons.injEq, not_and]
    rintro rfl
    exact absurd hd (not_mem_escapeChar hc (.inr rfl))

/-- Turning line ends into line feeds and writing a value may change places. -/
theorem lineEnds_escape (s t : Text) :
    lineEnds (escape s ++ '"' :: t) = escape (lineEnds s) ++ '"' :: lineEnds t := by
  fun_induction lineEnds s with
  | case1 s ih => exact congrArg ('\n' :: ·) ih
  | case2 s hs ih =>
    -- what follows the carriage return must not be written so that it starts with a line feed
    have hstart : escape ('\r' :: s) ++ '"' :: t = '\r' :: (escape s ++ '"' :: t) := rfl
    rw [hstart, lineEnds, ih]
    · rfl
    · exact fun u => escape_ne_newline hs t u
  | case3 c s h₁ h₂ ih =>
    have hc : '\r' ∉ escapeChar c := not_mem_escapeChar h₂ (.inl rfl)
    rw [escape, List.flatMap_cons, List.append_assoc, lineEnds_append hc, ← escape, ih, escape,
      escape, List.flatMap_cons, List.append_assoc]
  | case4 => rfl

/-- A value that is written and read by either reader. -/
theorem readValue_prepared (m : Reading) (s t : Text) :
    readValue m none (m.prepared (escape s ++ '"' :: t)) =
      some (m.received s, m.prepared t) := by
  cases m with
  | literal => exact readValue_escape .literal t s
  | conforming =>
    rw [Reading.prepared, lineEnds_escape, readValue_escape]
    rfl

/-! ### What a conforming reader loses -/

theorem receives_conforming (c : Char) :
    isChar (Reading.conforming.receives c) = true ∧
      isLayout (Reading.conforming.receives c) = false := by
  by_cases hc : isChar c = true
  · rw [Reading.receives, if_pos hc, Reading.takes]
    split_ifs with hlayout
    · decide
    · exact ⟨hc, by simpa using hlayout⟩
  · rw [Reading.receives, if_neg hc]
    decide

/-- Every reader gets a text that can be written and has no layout in it. -/
theorem received_of_plain (m : Reading) {s : Text}
    (h : ∀ c ∈ s, isChar c = true ∧ isLayout c = false) : m.received s = s := by
  have hself : s.map m.receives = s := by
    refine (List.map_congr_left fun c hc => ?_).trans (List.map_id s)
    cases m <;> simp [Reading.receives, Reading.takes, h c hc]
  cases m with
  | literal => exact hself
  | conforming =>
    have hreturn : '\r' ∉ s := fun hmem => absurd (h '\r' hmem).2 (by decide)
    have hends : lineEnds s = s := by simpa [lineEnds] using lineEnds_append hreturn []
    rw [Reading.received, Reading.prepared, hends, hself]

/-- A conforming reader gets no other text as it was. -/
theorem received_conforming_eq_self_iff (s : Text) :
    Reading.conforming.received s = s ↔ ∀ c ∈ s, isChar c = true ∧ isLayout c = false := by
  constructor
  · intro h c hc
    rw [← h] at hc
    obtain ⟨d, -, rfl⟩ := List.mem_map.1 hc
    exact receives_conforming d
  · exact received_of_plain .conforming

/-- A conforming reader gets a text exactly if there is nothing to replace in it. -/
theorem readValue_conforming_iff (s : Text) :
    readValue .conforming none (lineEnds (escape s ++ ['"'])) = some (s, []) ↔
      ∀ c ∈ s, isChar c = true ∧ isLayout c = false := by
  have hread := readValue_prepared .conforming s []
  simp only [Reading.prepared] at hread
  rw [hread, ← received_conforming_eq_self_iff]
  simp [lineEnds]

end GherkinIndex.Xml
