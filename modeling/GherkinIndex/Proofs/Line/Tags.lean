import GherkinIndex.Proofs.Tag.Written

/-! Tag lines.

    Tags stand on a line of their own, with blanks between them and any blanks around them. Once a
    blank has come behind a tag, a comment may take the rest of the line, whatever is in it. Reading
    gives back the tags of a line that is written this way, and takes no other line for tags.

        "\t@a  @b#c # not @d "     blanks | @a | blanks | @b#c | blanks | comment
        "@a and @b"                no tag line: a word that is no tag stands among the tags
        "# @a"                     no tag line: no tag stands before the comment -/

namespace GherkinIndex

/-- A tag as a file writes it, with a name behind the `@`. -/
def Tag.Named (t : Tag) : Prop := t.Written ∧ 1 < t.length

theorem Tag.Written.ne_nil {t : Tag} (h : t.Written) : t ≠ [] := by
  rintro rfl
  cases h.1

theorem Tag.Written.head?_ne {t : Tag} (h : t.Written) : t.head? ≠ some '#' := by
  rw [h.1]
  decide

namespace Line

/-! ### Writing -/

/-- What may stand behind a tag, with the tags in it: blanks, and behind at least one of them a
    comment or another tag. -/
inductive Behind : List Tag → Text → Prop
  | blanks {b : Text} (blank : ∀ c ∈ b, Text.isBlank c = true) : Behind [] b
  | comment {b : Text} (gap : b ≠ []) (blank : ∀ c ∈ b, Text.isBlank c = true) (note : Text) :
      Behind [] (b ++ '#' :: note)
  | tag {b t x : Text} {ts : List Tag} (gap : b ≠ []) (blank : ∀ c ∈ b, Text.isBlank c = true)
      (rest : Behind ts x) : Behind (t :: ts) (b ++ (t ++ x))

/-- The ways to write some tags on a line. -/
inductive Writes : List Tag → Text → Prop
  | line {b t x : Text} {ts : List Tag} (blank : ∀ c ∈ b, Text.isBlank c = true)
      (rest : Behind ts x) : Writes (t :: ts) (b ++ (t ++ x))

/-- Whatever stands behind a tag begins with a blank. -/
theorem Behind.isBlank_of_mem_head? {ts : List Tag} {x : Text} (h : Behind ts x) :
    ∀ c ∈ x.head?, Text.isBlank c = true := by
  intro c hc
  cases h with
  | blanks blank => exact blank c (List.mem_of_mem_head? hc)
  | comment gap blank note =>
    rw [List.head?_append_of_ne_nil _ gap] at hc
    exact blank c (List.mem_of_mem_head? hc)
  | tag gap blank rest =>
    rw [List.head?_append_of_ne_nil _ gap] at hc
    exact blank c (List.mem_of_mem_head? hc)

/-! ### Words before the comment -/

/-- The words before the first one that starts a comment. -/
def beforeComment (x : Text) : List Text := (Text.words x).takeWhile (·.head? != some '#')

section
variable {b : Text} (hb : ∀ c ∈ b, Text.isBlank c = true)
include hb

theorem beforeComment_of_blank : beforeComment b = [] := by
  rw [beforeComment, Text.words_of_blank hb]
  rfl

theorem beforeComment_comment (note : Text) : beforeComment (b ++ '#' :: note) = [] := by
  obtain ⟨w, ws, hwords⟩ := Text.words_cons_of_not_blank (c := '#') (by decide) note
  rw [beforeComment, Text.words_append_of_blank hb, hwords]
  rfl

theorem beforeComment_word {w r : Text} (hne : w ≠ []) (hw : ∀ c ∈ w, Text.isBlank c = false)
    (hr : ∀ c ∈ r.head?, Text.isBlank c = true) (hhead : w.head? ≠ some '#') :
    beforeComment (b ++ (w ++ r)) = w :: beforeComment r := by
  rw [beforeComment, Text.words_append_of_blank hb, Text.words_append hne hw hr,
    List.takeWhile_cons_of_pos (by simpa using hhead), ← beforeComment]

theorem beforeComment_tag {t x : Text} {ts : List Tag} (ht : Tag.Named t) (h : Behind ts x) :
    beforeComment (b ++ (t ++ x)) = t :: beforeComment x :=
  beforeComment_word hb ht.1.ne_nil ht.1.2 h.isBlank_of_mem_head? ht.1.head?_ne

end

/-- A line is a tag line if there are words before its comment and each of them is a tag. -/
theorem tags?_eq_some_iff {x : Text} {ts : List Tag} :
    tags? x = some ts ↔ ts ≠ [] ∧ (∀ t ∈ ts, Tag.Named t) ∧ beforeComment x = ts := by
  constructor
  · intro h
    have hwritten := written_of_tags? h
    simp only [tags?, Option.ite_none_right_eq_some, Bool.and_eq_true, Option.some.injEq] at h
    obtain ⟨⟨hsome, hall⟩, hts⟩ := h
    rw [hts] at hsome hall
    refine ⟨by simpa using hsome, fun t ht => ⟨hwritten t ht, ?_⟩, hts⟩
    have hname := List.all_eq_true.1 hall t ht
    have hlength : t.length ≠ 1 := by simpa using (Bool.and_eq_true_iff.1 hname).2
    have hpos : 0 < t.length := List.length_pos_iff.2 (hwritten t ht).ne_nil
    omega
  · rintro ⟨hne, hnamed, rfl⟩
    have hall : (beforeComment x).all (fun w => w.head? == some '@' && w.length != 1) = true := by
      rw [List.all_eq_true]
      intro t ht
      obtain ⟨⟨hhead, -⟩, hlength⟩ := hnamed t ht
      simp [hhead, Nat.ne_of_gt hlength]
    rw [tags?]
    exact if_pos (by rw [← beforeComment, hall]; simpa using hne)

/-! ### Beginnings -/

/-- How a text begins: with nothing but blanks, or behind some with a comment or with a word. -/
inductive Opens : Text → Prop
  | blanks {b : Text} (blank : ∀ a ∈ b, Text.isBlank a = true) : Opens b
  | comment {b : Text} (blank : ∀ a ∈ b, Text.isBlank a = true) (note : Text) :
      Opens (b ++ '#' :: note)
  | word {b w r : Text} {c : Char} (blank : ∀ a ∈ b, Text.isBlank a = true) (other : c ≠ '#')
      (full : ∀ a ∈ c :: w, Text.isBlank a = false) (stop : ∀ a ∈ r.head?, Text.isBlank a = true) :
      Opens (b ++ (c :: w ++ r))

theorem opens (x : Text) : Opens x := by
  rcases Text.blank_or_exists_word x with hblank | ⟨b, c, w, r, hb, hw, hr, rfl⟩
  · exact .blanks hblank
  · by_cases hc : c = '#'
    · rw [hc]
      exact .comment hb (w ++ r)
    · exact .word hb hc hw hr

/-! ### Reading back -/

theorem Behind.beforeComment_eq {ts : List Tag} {x : Text} (h : Behind ts x)
    (hts : ∀ t ∈ ts, Tag.Named t) : beforeComment x = ts := by
  induction h with
  | blanks blank => exact beforeComment_of_blank blank
  | comment _ blank note => exact beforeComment_comment blank note
  | tag _ blank rest ih =>
    rw [List.forall_mem_cons] at hts
    rw [beforeComment_tag blank hts.1 rest, ih hts.2]

theorem Writes.beforeComment_eq {ts : List Tag} {x : Text} (h : Writes ts x)
    (hts : ∀ t ∈ ts, Tag.Named t) : beforeComment x = ts := by
  cases h with
  | line blank rest =>
    rw [List.forall_mem_cons] at hts
    rw [beforeComment_tag blank hts.1 rest, rest.beforeComment_eq hts.2]

/-- There are blanks in front of a character that is not one if the text begins with a blank. -/
theorem blanks_ne_nil {b y : Text} {c : Char} (hc : Text.isBlank c = false)
    (hx : ∀ a ∈ (b ++ c :: y).head?, Text.isBlank a = true) : b ≠ [] := by
  rintro rfl
  have hblank : Text.isBlank c = true := hx c rfl
  rw [hc] at hblank
  cases hblank

/-- A text that begins with a blank, or is empty, can stand behind a tag. -/
theorem behind_beforeComment {x : Text} (hx : ∀ c ∈ x.head?, Text.isBlank c = true) :
    Behind (beforeComment x) x := by
  induction hn : x.length using Nat.strongRecOn generalizing x with
  | ind n ih =>
    cases opens x with
    | blanks blank =>
      rw [beforeComment_of_blank blank]
      exact .blanks blank
    | comment blank note =>
      rw [beforeComment_comment blank]
      exact .comment (blanks_ne_nil (by decide) hx) blank note
    | @word b w r c blank other full stop =>
      have hshorter : r.length < n := by
        rw [← hn, List.length_append, List.length_append, List.length_cons]
        omega
      rw [beforeComment_word blank (List.cons_ne_nil c w) full stop (by simpa using other)]
      exact .tag (blanks_ne_nil (full c List.mem_cons_self) hx) blank (ih _ hshorter stop rfl)

/-- A line with words before its comment is a way to write them. -/
theorem writes_beforeComment {x : Text} (h : beforeComment x ≠ []) :
    Writes (beforeComment x) x := by
  cases opens x with
  | blanks blank => exact absurd (beforeComment_of_blank blank) h
  | comment blank note => exact absurd (beforeComment_comment blank note) h
  | @word b w r c blank other full stop =>
    rw [beforeComment_word blank (List.cons_ne_nil c w) full stop (by simpa using other)]
    exact .line blank (behind_beforeComment stop)

theorem Writes.ne_nil {ts : List Tag} {x : Text} (h : Writes ts x) : ts ≠ [] := by
  cases h
  exact List.cons_ne_nil _ _

/-- Single spaces between the tags are one way to write them. -/
theorem tags?_join {ts : List Tag} (hne : ts ≠ []) (hts : ∀ t ∈ ts, Tag.Named t) :
    tags? (Text.join [' '] ts) = some ts := by
  refine tags?_eq_some_iff.2 ⟨hne, hts, ?_⟩
  rw [beforeComment, Text.words_join fun t ht => ⟨(hts t ht).1.ne_nil, (hts t ht).1.2⟩,
    List.takeWhile_eq_self_iff]
  exact fun t ht => by simpa using (hts t ht).1.head?_ne

/-- CORRECT (tag lines): a line is read as some tags exactly if each of them has a name and the line
    is a way to write them. The tags that lines can be read as are any, at least one, that have
    names. -/
theorem tags_read_back :
    (∀ x ts, tags? x = some ts ↔ (∀ t ∈ ts, Tag.Named t) ∧ Writes ts x) ∧
      ∀ ts, (∃ x, tags? x = some ts) ↔ ts ≠ [] ∧ ∀ t ∈ ts, Tag.Named t := by
  refine ⟨fun x ts => ⟨fun h => ?_, fun ⟨hts, hwrites⟩ => ?_⟩,
    fun ts => ⟨fun ⟨x, hx⟩ => ?_, fun ⟨hne, hts⟩ => ⟨_, tags?_join hne hts⟩⟩⟩
  · obtain ⟨hne, hts, rfl⟩ := tags?_eq_some_iff.1 h
    exact ⟨hts, writes_beforeComment hne⟩
  · exact tags?_eq_some_iff.2 ⟨hwrites.ne_nil, hts, hwrites.beforeComment_eq hts⟩
  · obtain ⟨hne, hts, -⟩ := tags?_eq_some_iff.1 hx
    exact ⟨hne, hts⟩

/-- A comment sign within a tag and a tag within a comment. -/
example : tags? "\t@a#b\u3000@c  # and @d".toList = some ["@a#b".toList, "@c".toList] := by decide

end Line
end GherkinIndex
