import Mathlib.Data.List.Nodup
import GherkinIndex.Proofs.Feature.Template
import GherkinIndex.Proofs.Line.Kinds

/-! Declared languages.

    The first line of a file may declare a language. It is a comment with the word, a colon and a
    code, blanks around each of them, and nothing else. A code is two or three letters and then some
    subtags, and only its letters up to the first mark choose the row of the table.

        # language : pt-BR        code pt-BR      letters pt      row pt
        # language: DE_at_1       code DE_at_1    letters DE      row de
        # language: tlh           code tlh        no such row, so English
        # lang: fr                no declaration, so English

    A declaration has no other effect: without a row for its code it is a line like any comment. -/

namespace GherkinIndex

/-! ### Letters and digits -/

theorem toNat_lt_of_isAlphanum {c : Char} (h : c.isAlphanum = true) : c.toNat < 128 := by
  have hranges : (decide ('A'.val ≤ c.val ∧ c.val ≤ 'Z'.val) ||
      decide ('a'.val ≤ c.val) && decide (c.val ≤ 'z'.val) ||
      decide ('0'.val ≤ c.val) && decide (c.val ≤ '9'.val)) = true := h
  simp only [Bool.or_eq_true, Bool.and_eq_true, decide_eq_true_eq] at hranges
  rcases hranges with (⟨-, hlast⟩ | ⟨-, hlast⟩) | ⟨-, hlast⟩
  · exact Nat.lt_of_le_of_lt hlast (by decide)
  · exact Nat.lt_of_le_of_lt hlast (by decide)
  · exact Nat.lt_of_le_of_lt hlast (by decide)

/-- What holds of the letters and digits among the first 128 characters holds of all of them. -/
theorem forall_isAlphanum {p : Char → Prop}
    (h : ∀ n < 128, (Char.ofNat n).isAlphanum = true → p (Char.ofNat n)) {c : Char}
    (hc : c.isAlphanum = true) : p c := by
  have hn := h c.toNat (toNat_lt_of_isAlphanum hc)
  rw [Char.ofNat_toNat] at hn
  exact hn hc

theorem isBlank_of_isAlphanum {c : Char} (h : c.isAlphanum = true) : Text.isBlank c = false :=
  forall_isAlphanum (p := fun c => Text.isBlank c = false) (by decide) h

theorem isAlphanum_of_isAlpha {c : Char} (h : c.isAlpha = true) : c.isAlphanum = true := by
  rw [Char.isAlphanum, h, Bool.true_or]

namespace Locale

/-! ### Codes -/

/-- What sets the subtags of a code apart. -/
def isMark (c : Char) : Bool := c == '-' || c == '_'

/-- Two or three letters, then any number of subtags: a mark, and some letters and digits. -/
inductive Code : Text → Prop
  | letters {p : Text} (length : p.length = 2 ∨ p.length = 3)
      (alpha : ∀ c ∈ p, c.isAlpha = true) : Code p
  | subtag {t s : Text} {m : Char} (code : Code t) (mark : isMark m = true) (some : s ≠ [])
      (alphanum : ∀ c ∈ s, c.isAlphanum = true) : Code (t ++ m :: s)

/-- The letters of a code that choose a language: those before the first mark. -/
def primary (c : Text) : Text := c.takeWhile (!isMark ·)

theorem isMark_iff {c : Char} : isMark c = true ↔ c = '-' ∨ c = '_' := by
  rw [isMark, Bool.or_eq_true, beq_iff_eq, beq_iff_eq]

theorem isMark_of_isAlphanum {c : Char} (h : c.isAlphanum = true) : isMark c = false :=
  forall_isAlphanum (p := fun c => isMark c = false) (by decide) h

/-- A text is cut at its marks. -/
theorem exists_marks (t : Text) : ∃ p, ∃ gs : List (Char × Text),
    t = p ++ gs.flatMap (fun g => g.1 :: g.2) ∧ t.splitOnP isMark = p :: gs.map (·.2) ∧
      ∀ g ∈ gs, isMark g.1 = true := by
  induction t with
  | nil => exact ⟨[], [], rfl, rfl, by simp⟩
  | cons c t ih =>
    obtain ⟨p, gs, ht, hsplit, hmarks⟩ := ih
    by_cases hc : isMark c = true
    · refine ⟨[], (c, p) :: gs, by rw [ht]; rfl, ?_, List.forall_mem_cons.2 ⟨hc, hmarks⟩⟩
      rw [List.splitOnP_cons_eq_if_modifyHead, if_pos hc, hsplit]
      rfl
    · refine ⟨c :: p, gs, by rw [ht]; rfl, ?_, hmarks⟩
      rw [List.splitOnP_cons_eq_if_modifyHead, if_neg hc, hsplit]
      rfl

/-- What the test of a code looks at. -/
theorem isCode_iff_splitOnP {t : Text} : isCode t = true ↔
    ∃ p ss, t.splitOnP isMark = p :: ss ∧ (p.length = 2 ∨ p.length = 3) ∧
      (∀ c ∈ p, c.isAlpha = true) ∧ ∀ s ∈ ss, s ≠ [] ∧ ∀ c ∈ s, c.isAlphanum = true := by
  have hmark : (fun c => c == '-' || c == '_') = isMark := rfl
  rw [isCode, hmark]
  cases t.splitOnP isMark with
  | nil => simp
  | cons p ss => simp [and_assoc]

theorem code_of_subtags {p : Text} (hp : Code p) {gs : List (Char × Text)}
    (hgs : ∀ g ∈ gs, isMark g.1 = true ∧ g.2 ≠ [] ∧ ∀ c ∈ g.2, c.isAlphanum = true) :
    Code (p ++ gs.flatMap fun g => g.1 :: g.2) := by
  induction gs using List.reverseRecOn with
  | nil => simpa using hp
  | append_singleton gs g ih =>
    rw [List.forall_mem_append, List.forall_mem_singleton] at hgs
    obtain ⟨hgs, hmark, hsome, hchars⟩ := hgs
    rw [List.flatMap_append, List.flatMap_singleton, ← List.append_assoc]
    exact (ih hgs).subtag hmark hsome hchars

/-- The test accepts the codes and nothing else. -/
theorem isCode_iff {t : Text} : isCode t = true ↔ Code t := by
  rw [isCode_iff_splitOnP]
  constructor
  · rintro ⟨p, ss, hsplit, hlength, halpha, hss⟩
    obtain ⟨q, gs, ht, hparts, hmarks⟩ := exists_marks t
    obtain ⟨rfl, rfl⟩ := List.cons.inj (hparts.symm.trans hsplit)
    rw [ht]
    refine code_of_subtags (.letters hlength halpha) fun g hg => ⟨hmarks g hg, ?_⟩
    exact hss g.2 (List.mem_map_of_mem hg)
  · intro h
    induction h with
    | @letters p length alpha =>
      refine ⟨p, [], List.splitOnP_eq_singleton fun c hc => ?_, length, alpha, by simp⟩
      exact isMark_of_isAlphanum (isAlphanum_of_isAlpha (alpha c hc))
    | @subtag t s m _ mark hsome alphanum ih =>
      obtain ⟨p, ss, hsplit, hlength, halpha, hss⟩ := ih
      have hlast : s.splitOnP isMark = [s] :=
        List.splitOnP_eq_singleton fun c hc => isMark_of_isAlphanum (alphanum c hc)
      refine ⟨p, ss ++ [s], ?_, hlength, halpha, ?_⟩
      · rw [List.splitOnP_append_cons t s mark, hsplit, hlast, List.cons_append]
      · rw [List.forall_mem_append, List.forall_mem_singleton]
        exact ⟨hss, hsome, alphanum⟩

theorem Code.not_blank {t : Text} (h : Code t) : ∀ c ∈ t, Text.isBlank c = false := by
  induction h with
  | letters _ alpha => exact fun c hc => isBlank_of_isAlphanum (isAlphanum_of_isAlpha (alpha c hc))
  | @subtag t s m _ mark _ alphanum ih =>
    rw [List.forall_mem_append, List.forall_mem_cons]
    refine ⟨ih, ?_, fun c hc => isBlank_of_isAlphanum (alphanum c hc)⟩
    rcases isMark_iff.1 mark with rfl | rfl <;> decide

/-! ### Rows -/

/-- Only what stands before the first mark counts. -/
theorem primary_append {m : Char} (hm : isMark m = true) (t s : Text) :
    primary (t ++ m :: s) = primary t := by
  induction t with
  | nil => exact List.takeWhile_cons_of_neg (by simp [hm])
  | cons c t ih =>
    by_cases hc : isMark c = true
    · simp [primary, hc]
    · simpa [primary, hc] using ih

theorem isAlpha_of_mem_primary {t : Text} (h : Code t) : ∀ c ∈ primary t, c.isAlpha = true := by
  induction h with
  | letters _ alpha => exact fun c hc => alpha c ((List.takeWhile_sublist _).subset hc)
  | subtag _ mark _ _ ih => rwa [primary_append mark]

/-- A text is what stands before its first mark, or there is a mark and something behind. -/
theorem eq_primary_or (t : Text) :
    t = primary t ∨ ∃ m s, isMark m = true ∧ t = primary t ++ m :: s := by
  have hsplit : primary t ++ t.dropWhile (!isMark ·) = t := List.takeWhile_append_dropWhile
  cases hrest : t.dropWhile (!isMark ·) with
  | nil => exact .inl (by rw [hrest, List.append_nil] at hsplit; exact hsplit.symm)
  | cons m s =>
    have hstop := List.head?_dropWhile_not (!isMark ·) t
    rw [hrest] at hstop hsplit
    exact .inr ⟨m, s, by simpa using hstop, hsplit.symm⟩

/-- How the table writes a character of a code. -/
def normalChar (c : Char) : Char := if c.toLower = '_' then '-' else c.toLower

theorem normalChar_of_isAlpha {c : Char} (h : c.isAlpha = true) :
    normalChar c = c.toLower ∧ c.toLower ≠ '-' :=
  forall_isAlphanum (p := fun c => c.isAlpha = true → normalChar c = c.toLower ∧ c.toLower ≠ '-')
    (by decide) (isAlphanum_of_isAlpha h) h

theorem normalChar_of_isMark {c : Char} (h : isMark c = true) : normalChar c = '-' := by
  rcases isMark_iff.1 h with rfl | rfl <;> decide

theorem normalCode_of_code {t : Text} (h : Code t) : normalCode t = t.map normalChar := by
  rw [normalCode, Text.trim_of_not_blank h.not_blank, Text.lower, List.map_map]
  rfl

theorem map_normalChar_primary {t : Text} (h : Code t) :
    (primary t).map normalChar = Text.lower (primary t) :=
  List.map_congr_left fun c hc => (normalChar_of_isAlpha (isAlpha_of_mem_primary h c hc)).1

theorem not_mem_lower_primary {t : Text} (h : Code t) : '-' ∉ Text.lower (primary t) := by
  rw [Text.lower, List.mem_map]
  rintro ⟨c, hc, hlower⟩
  exact (normalChar_of_isAlpha (isAlpha_of_mem_primary h c hc)).2 hlower

/-- Codes are looked up by their letters alone. -/
theorem lookup_of_code {t : Text} (h : Code t) :
    lookup t = all.find? (·.code == Text.lower (primary t)) := by
  have hdash : '-' ∉ Text.lower (primary t) := not_mem_lower_primary h
  rw [lookup, normalCode_of_code h]
  rcases eq_primary_or t with ht | ⟨m, s, hm, ht⟩
  · have hnormal : t.map normalChar = Text.lower (primary t) := by
      rw [← map_normalChar_primary h, ← ht]
    rw [hnormal, Text.cutAt_of_not_mem hdash]
    dsimp only
    cases all.find? (·.code == Text.lower (primary t)) <;> rfl
  · have hnormal : t.map normalChar = Text.lower (primary t) ++ '-' :: s.map normalChar := by
      conv_lhs => rw [ht]
      rw [List.map_append, map_normalChar_primary h, List.map_cons, normalChar_of_isMark hm]
    -- no row has subtags in its code
    have hrows : ∀ l ∈ all, '-' ∉ l.code := by decide +kernel
    have hnone : all.find? (·.code == t.map normalChar) = none := by
      rw [List.find?_eq_none]
      intro l hl hcode
      refine hrows l hl ?_
      rw [beq_iff_eq.1 hcode, hnormal]
      simp
    dsimp only
    rw [hnone, hnormal, Text.cutAt_append hdash]
    rfl

theorem find?_code_eq_some_iff {q : Text} {l : Locale} :
    all.find? (·.code == q) = some l ↔ l ∈ all ∧ l.code = q := by
  have hcodes : (all.map (·.code)).Nodup := by decide +kernel
  constructor
  · intro h
    exact ⟨List.mem_of_find?_eq_some h, by simpa using List.find?_some h⟩
  · rintro ⟨hl, rfl⟩
    cases h : all.find? (·.code == l.code) with
    | none => exact absurd (List.find?_eq_none.1 h l hl) (by simp)
    | some l' =>
      have hcode : l'.code = l.code := by simpa using List.find?_some h
      rw [List.inj_on_of_nodup_map hcodes (List.mem_of_find?_eq_some h) hl hcode]

/-! ### Declarations -/

/-- A line that declares a code: a comment with the word, a colon and the code, and blanks around
    each of them. -/
inductive Declares : Text → Text → Prop
  | comment {b₀ b₁ b₂ b₃ b₄ c : Text}
      (blank : ∀ b ∈ [b₀, b₁, b₂, b₃, b₄], ∀ ch ∈ b, Text.isBlank ch = true) (code : Code c) :
      Declares
        (b₀ ++ '#' :: (b₁ ++ ("language".toList ++ (b₂ ++ ':' :: (b₃ ++ (c ++ b₄)))))) c

theorem declared?_eq_some_iff {x c : Text} : declared? x = some c ↔ Declares x c := by
  have hword : "language".toList = 'l' :: "anguage".toList := by decide
  have hhash : Text.isBlank '#' = false := by decide
  have hl : Text.isBlank 'l' = false := by decide
  have hcolon : Text.isBlank ':' = false := by decide
  simp only [declared?, Option.bind_eq_bind, Option.bind_eq_some_iff, hword,
    Text.isPrefixOf?_trimStart_eq_some_iff hhash, Text.isPrefixOf?_trimStart_eq_some_iff hl,
    Text.isPrefixOf?_trimStart_eq_some_iff hcolon, Option.ite_none_right_eq_some,
    Option.some.injEq, isCode_iff]
  constructor
  · rintro ⟨_, ⟨b₀, h₀, rfl⟩, _, ⟨b₁, h₁, rfl⟩, rest, ⟨b₂, h₂, rfl⟩, hcode, rfl⟩
    obtain ⟨b₃, b₄, h₃, h₄, hrest⟩ := (Text.trim_eq_iff hcode.not_blank).1 rfl
    have hblank : ∀ b ∈ [b₀, b₁, b₂, b₃, b₄], ∀ ch ∈ b, Text.isBlank ch = true := by
      simp only [List.forall_mem_cons]
      exact ⟨h₀, h₁, h₂, h₃, h₄, by simp⟩
    have hdeclares := Declares.comment hblank hcode
    rw [← hrest, hword] at hdeclares
    exact hdeclares
  · intro h
    cases h with
    | @comment b₀ b₁ b₂ b₃ b₄ _ blank code =>
      simp only [List.forall_mem_cons] at blank
      obtain ⟨h₀, h₁, h₂, h₃, h₄, -⟩ := blank
      have htrim : Text.trim (b₃ ++ (c ++ b₄)) = c :=
        (Text.trim_eq_iff code.not_blank).2 ⟨b₃, b₄, h₃, h₄, rfl⟩
      have hcode : Code (Text.trim (b₃ ++ (c ++ b₄))) := by rwa [htrim]
      rw [hword]
      exact ⟨_, ⟨b₀, h₀, rfl⟩, _, ⟨b₁, h₁, rfl⟩, _, ⟨b₂, h₂, rfl⟩, hcode, htrim⟩

theorem Declares.unique {x c c' : Text} (h : Declares x c) (h' : Declares x c') : c = c' := by
  rw [← declared?_eq_some_iff] at h h'
  exact Option.some.inj (h.symm.trans h')

/-! ### Choosing a language -/

/-- The table has a row for the letters of a code. -/
def Supported (c : Text) : Prop := ∃ l ∈ all, l.code = Text.lower (primary c)

instance (c : Text) : Decidable (Supported c) :=
  inferInstanceAs (Decidable (∃ l ∈ all, l.code = Text.lower (primary c)))

theorem Declares.code {x c : Text} (h : Declares x c) : Code c := by
  cases h
  assumption

theorem select_of_declares {x c : Text} (h : Declares x c) :
    select (some x) =
      (all.find? (·.code == Text.lower (primary c))).elim (.error ⟨c⟩) .ok := by
  rw [← lookup_of_code h.code, select, Option.bind_some, declared?_eq_some_iff.2 h]
  dsimp only
  cases lookup c <;> rfl

theorem select_eq_ok_iff {x c : Text} (h : Declares x c) {l : Locale} :
    select (some x) = .ok l ↔ l ∈ all ∧ l.code = Text.lower (primary c) := by
  rw [← find?_code_eq_some_iff, select_of_declares h]
  cases all.find? (·.code == Text.lower (primary c)) <;> simp

theorem select_of_unsupported {x c : Text} (h : Declares x c) (hc : ¬ Supported c) :
    select (some x) = .error ⟨c⟩ := by
  have hnone : all.find? (·.code == Text.lower (primary c)) = none := by
    rw [Option.eq_none_iff_forall_ne_some]
    exact fun l hl => hc ⟨l, find?_code_eq_some_iff.1 hl⟩
  rw [select_of_declares h, hnone, Option.elim_none]

theorem select_of_not_declares {x : Text} (h : ∀ c, ¬ Declares x c) :
    select (some x) = .ok english := by
  have hnone : declared? x = none := by
    rw [Option.eq_none_iff_forall_ne_some]
    exact fun c hc => h c (declared?_eq_some_iff.1 hc)
  rw [select, Option.bind_some, hnone]

end Locale

/-! ### Files -/

/-- A declaration is a line without structure. -/
theorem classify_of_declares {l : Locale} (hl : l.Unambiguous) {x c : Text}
    (h : Locale.Declares x c) : Line.classify l x = none := by
  have hhash : (Text.trimStart x).head? = some '#' := by
    cases h with
    | comment blank _ =>
      rw [Text.trimStart_append_of_blank (blank _ List.mem_cons_self),
        Text.trimStart_cons_of_not_blank (by decide)]
      rfl
  rw [Option.eq_none_iff_forall_ne_some]
  intro k hk
  obtain ⟨r, hr⟩ := (Line.Recogniser.classify_eq_some_iff hl).1 hk
  obtain ⟨ch, hch, hbegins⟩ := Line.Recogniser.begins_of_read hl (by rw [hr]; rfl)
  obtain rfl : ch = '#' := Option.some.inj (hch.symm.trans hhash)
  -- no kind of line begins like a comment
  cases r <;> simp [Line.Recogniser.Begins, beginsKeyword] at hbegins

/-- Events noted beforehand do not change what a file comes to. -/
theorem readLines_note (f : TagFilter) (path : Option Text) (note note' : List Event)
    (ks : List (Option Line)) :
    (readLines f path note ks).result = (readLines f path note' ks).result := by
  have hnote : Alike { log := note } { log := note' } := ⟨rfl, rfl⟩
  exact hnote.resultOf_eq f path ks.length (ks.foldl Fence.after none) (marks none 1 ks)

/-- A text read with English keywords comes to what its classified lines come to. -/
theorem parse_of_english (f : TagFilter) (path : Option Text) {s x : Text} {rest : List Text}
    (hs : fileLines s = x :: rest) (hx : Line.classify .english x = none)
    (hselect : ∀ l, Locale.select (some x) = .ok l → l = .english) :
    (parse f path s).result =
      (readLines f path [] (none :: rest.map (Line.classify .english))).result := by
  have hlocale : fileLocale s = .english := by
    rw [fileLocale, hs, List.head?_cons, Locale.choose]
    cases h : Locale.select (some x) with
    | ok l => exact hselect l h
    | error e => rfl
  rw [parse_eq_readLines, readLines_note f path _ [], hlocale, hs, List.map_cons, hx]

/-- CORRECT (declarations): a line declares a code if it is written as a comment of the one form, and
    then only one. A code chooses the row that its letters name, in whatever case and whatever their
    subtags, or is refused when there is none; all other lines choose English. A file whose
    declaration is refused comes to what it would come to with any line without structure in its
    place. -/
theorem declarations_resolved :
    (∀ x c, Locale.declared? x = some c ↔ Locale.Declares x c) ∧
      (∀ x c c', Locale.Declares x c → Locale.Declares x c' → c = c') ∧
      (∀ x c, Locale.Declares x c →
        (∀ l, Locale.select (some x) = .ok l ↔
          l ∈ Locale.all ∧ l.code = Text.lower (Locale.primary c)) ∧
        (¬ Locale.Supported c → Locale.select (some x) = .error ⟨c⟩)) ∧
      (∀ x, (∀ c, ¬ Locale.Declares x c) → Locale.select (some x) = .ok .english) ∧
      ∀ f path x y c rest s t, fileLines s = x :: rest → fileLines t = y :: rest →
        Locale.Declares x c → ¬ Locale.Supported c → (∀ c', ¬ Locale.Declares y c') →
        Line.classify .english y = none → (parse f path s).result = (parse f path t).result := by
  refine ⟨fun _ _ => Locale.declared?_eq_some_iff, fun _ _ _ => Locale.Declares.unique,
    fun x c h => ⟨fun _ => Locale.select_eq_ok_iff h, Locale.select_of_unsupported h⟩,
    fun _ => Locale.select_of_not_declares, ?_⟩
  intro f path x y c rest s t hs ht hx hc hy hinert
  have hclear : Locale.english.Unambiguous := Locale.unambiguous_of_mem List.mem_cons_self
  rw [parse_of_english f path hs (classify_of_declares hclear hx),
    parse_of_english f path ht hinert]
  · intro l hl
    rw [Locale.select_of_not_declares hy] at hl
    exact (Except.ok.inj hl).symm
  · intro l hl
    rw [Locale.select_of_unsupported hx hc] at hl
    cases hl

/-- A code in capitals with two subtags; and a file in a language of no row, where the lines that are
    read begin with English keywords. -/
theorem declarations_resolved_unsupported :
    let brazil := "\t# language : PT_br-1 ".toList
    let klingon := "#language:tlh\nFeature: a\nScenario: s".toList
    let plain := "# lang: fr\nFeature: a\nScenario: s".toList
    let rest := ["Feature: a".toList, "Scenario: s".toList]
    Locale.Declares brazil "PT_br-1".toList ∧
      Locale.select (some brazil) = .ok .portuguese ∧
      fileLines klingon = "#language:tlh".toList :: rest ∧
      Locale.Declares "#language:tlh".toList "tlh".toList ∧ ¬ Locale.Supported "tlh".toList ∧
      fileLines plain = "# lang: fr".toList :: rest ∧
      (∀ c, ¬ Locale.Declares "# lang: fr".toList c) ∧
      Line.classify .english "# lang: fr".toList = none ∧
      Locale.select (some "# lang: fr".toList) = .ok .english ∧
      (parse .unfiltered none klingon).result = (parse .unfiltered none plain).result := by
  intro brazil klingon plain rest
  obtain ⟨hdeclared, -, hselect, hother, hparse⟩ := declarations_resolved
  have hbrazil : Locale.Declares brazil "PT_br-1".toList := (hdeclared _ _).1 (by decide)
  have hrow : Locale.portuguese ∈ Locale.all ∧
      Locale.portuguese.code = Text.lower (Locale.primary "PT_br-1".toList) :=
    ⟨by simp [Locale.all], by decide⟩
  have hs : fileLines klingon = "#language:tlh".toList :: rest := by decide
  have hklingon : Locale.Declares "#language:tlh".toList "tlh".toList :=
    (hdeclared _ _).1 (by decide)
  have hnorow : ¬ Locale.Supported "tlh".toList := by decide
  have ht : fileLines plain = "# lang: fr".toList :: rest := by decide
  have hplain : ∀ c, ¬ Locale.Declares "# lang: fr".toList c := by
    intro c hc
    have hsome := (hdeclared _ _).2 hc
    have hnone : Locale.declared? "# lang: fr".toList = none := by decide
    rw [hnone] at hsome
    cases hsome
  have hclass : Line.classify .english "# lang: fr".toList = none := by decide
  exact ⟨hbrazil, ((hselect _ _ hbrazil).1 _).2 hrow, hs, hklingon, hnorow, ht, hplain, hclass,
    hother _ hplain, hparse _ none _ _ _ _ _ _ hs ht hklingon hnorow hplain hclass⟩

end GherkinIndex
