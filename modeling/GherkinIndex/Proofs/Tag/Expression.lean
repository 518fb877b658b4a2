import Mathlib.Data.List.Basic
import GherkinIndex.Proofs.Tag.Filter
import GherkinIndex.Tag.Expression

/-! What tag expressions mean.

    Each expression is read for itself. It forbids its tags, needs its only tag, or offers a choice
    of its tags; the filter of several expressions gathers what they forbid, need and offer.

        ~@w, ~~ v     forbids @w and @v
        a             needs @a
        @b, @c        offers @b and @c  ─┐
        @c, d         offers @c and @d  ─┴─ one of @b, @c, @d

    What is gathered does not depend on the order of the expressions or on how often each of them
    stands there. The first one without a meaning is the error of them all. -/

namespace GherkinIndex

namespace Expression

/-! ### One expression -/

/-- The tag of a term, without the tildes that negate it. -/
def tagOf (term : Text) : Tag := Tag.normal (term.dropWhile (· == '~'))

/-- Why an expression has no meaning. -/
inductive Refused (raw : Text) : ExpressionError → Prop
  | empty (none : terms raw = []) : Refused raw .empty
  | mixed {s t : Text} (hs : s ∈ terms raw) (ht : t ∈ terms raw) (negated : isNegated s = true)
      (plain : isNegated t = false) : Refused raw (.mixed raw)

/-- Every term is negated. -/
def Negated (raw : Text) : Prop := ∀ t ∈ terms raw, isNegated t = true

/-- There is one term, and it is plain. -/
structure Single (raw t : Text) : Prop where
  only : terms raw = [t]
  plain : isNegated t = false

/-- There are several terms, and all of them are plain. -/
structure Choice (raw : Text) : Prop where
  several : 2 ≤ (terms raw).length
  plain : ∀ t ∈ terms raw, isNegated t = false

/-- What an expression is read as. -/
inductive Reads (raw : Text) : Except ExpressionError Expression → Prop
  | refused {e : ExpressionError} (why : Refused raw e) : Reads raw (.error e)
  | noneOf (some : terms raw ≠ []) (negated : Negated raw) :
      Reads raw (.ok (.noneOf ((terms raw).map (·.dropWhile (· == '~')))))
  | allOf {t : Text} (single : Single raw t) : Reads raw (.ok (.allOf t))
  | anyOf (choice : Choice raw) : Reads raw (.ok (.anyOf (terms raw)))

theorem reads_ofText (raw : Text) : Reads raw (ofText raw) := by
  simp only [ofText]
  by_cases hempty : (terms raw).isEmpty = true
  · rw [if_pos hempty]
    exact .refused (.empty (List.isEmpty_iff.1 hempty))
  rw [if_neg hempty]
  rw [List.isEmpty_iff] at hempty
  by_cases hall : (terms raw).all isNegated = true
  · rw [if_pos hall]
    exact .noneOf hempty (List.all_eq_true.1 hall)
  rw [if_neg hall]
  by_cases hany : (terms raw).any isNegated = true
  · rw [if_pos hany]
    obtain ⟨s, hs, hnegated⟩ := List.any_eq_true.1 hany
    obtain ⟨t, ht, hplain⟩ : ∃ t ∈ terms raw, isNegated t = false := by simpa using hall
    exact .refused (.mixed hs ht hnegated hplain)
  rw [if_neg hany]
  have hplain : ∀ t ∈ terms raw, isNegated t = false := by simpa using hany
  by_cases hone : ∃ t, terms raw = [t]
  · obtain ⟨t, honly⟩ := hone
    simp only [honly]
    exact .allOf ⟨honly, hplain t (by simp [honly])⟩
  · have hmany := List.length_eq_one_iff.not.2 hone
    have hsome := List.length_pos_iff.2 hempty
    rw [not_exists] at hone
    simp only
    exact .anyOf ⟨by omega, hplain⟩

theorem Refused.unique {raw : Text} {e e' : ExpressionError} (h : Refused raw e)
    (h' : Refused raw e') : e = e' := by
  cases h with
  | empty none => cases h' with
    | empty => rfl
    | mixed hs => simp [none] at hs
  | mixed hs => cases h' with
    | empty none => simp [none] at hs
    | mixed => rfl

/-- Terms of one kind only are no reason to refuse an expression. -/
theorem not_refused {raw : Text} {b : Bool} (hne : terms raw ≠ [])
    (hall : ∀ t ∈ terms raw, isNegated t = b) (e : ExpressionError) : ¬ Refused raw e := by
  rintro (hnone | ⟨hs, ht, hnegated, hplain⟩)
  · exact hne hnone
  · rw [hall _ hs] at hnegated
    rw [hall _ ht, hnegated] at hplain
    cases hplain

theorem Single.ne_nil {raw t : Text} (h : Single raw t) : terms raw ≠ [] := by
  simp [h.only]

theorem Single.all_plain {raw t : Text} (h : Single raw t) :
    ∀ u ∈ terms raw, isNegated u = false := by
  simpa [h.only] using h.plain

theorem Choice.ne_nil {raw : Text} (h : Choice raw) : terms raw ≠ [] := by
  intro hnil
  have hseveral := h.several
  simp [hnil] at hseveral

theorem ofText_eq_error_iff {raw : Text} {e : ExpressionError} :
    ofText raw = .error e ↔ Refused raw e := by
  have hreads := reads_ofText raw
  constructor
  · intro h
    rw [h] at hreads
    cases hreads with
    | refused why => exact why
  · intro h
    generalize ofText raw = r at hreads
    cases hreads with
    | refused why => rw [why.unique h]
    | noneOf hsome negated => exact absurd h (not_refused hsome negated e)
    | allOf single => exact absurd h (not_refused single.ne_nil single.all_plain e)
    | anyOf choice => exact absurd h (not_refused choice.ne_nil choice.plain e)

/-! ### What an expression adds -/

/-- A plain term is its tag but for the blanks around it and a missing `@`. -/
theorem tagOf_of_plain {t : Text} (h : isNegated t = false) : tagOf t = Tag.normal t := by
  rw [tagOf]
  cases t with
  | nil => rfl
  | cons c t =>
    have hc : (c == '~') = false := by simpa [isNegated] using h
    rw [List.dropWhile_cons_of_neg (by simp [hc])]

theorem Negated.not_plain {raw : Text} (h : Negated raw) (hne : terms raw ≠ []) :
    ¬ ∀ t ∈ terms raw, isNegated t = false := by
  obtain ⟨t, ht⟩ := List.exists_mem_of_ne_nil _ hne
  intro hplain
  simpa [h t ht] using hplain t ht

/-- An expression forbids the tags of its terms if they are negated. -/
def Forbids (raw : Text) (u : Tag) : Prop := Negated raw ∧ ∃ t ∈ terms raw, tagOf t = u

/-- An expression offers the tags of its terms if they are plain and it has several. -/
def Offers (raw : Text) (u : Tag) : Prop := Choice raw ∧ ∃ t ∈ terms raw, tagOf t = u

/-- An expression needs the tag of its only term if that is plain. -/
def Needs (raw : Text) (u : Tag) : Prop := ∃ t, Single raw t ∧ tagOf t = u

end Expression

namespace TagFilter
open Expression

/-- The tags of `g` are those of `f` and what some expressions forbid, offer and need. -/
structure Gathers (f : TagFilter) (raws : List Text) (g : TagFilter) : Prop where
  noneOf : ∀ u, u ∈ g.noneOf.toList ↔ u ∈ f.noneOf.toList ∨ ∃ raw ∈ raws, Forbids raw u
  anyOf : ∀ u, u ∈ g.anyOf.toList ↔ u ∈ f.anyOf.toList ∨ ∃ raw ∈ raws, Offers raw u
  allOf : ∀ u, u ∈ g.allOf.toList ↔ u ∈ f.allOf.toList ∨ ∃ raw ∈ raws, Needs raw u

theorem Gathers.refl (f : TagFilter) : Gathers f [] f := by
  constructor <;> simp

theorem Gathers.cons {f g h : TagFilter} {raw : Text} {raws : List Text} (hfg : Gathers f [raw] g)
    (hgh : Gathers g raws h) : Gathers f (raw :: raws) h := by
  constructor <;> intro u
  · rw [hgh.noneOf, hfg.noneOf, or_assoc, List.exists_mem_cons_iff]
    simp
  · rw [hgh.anyOf, hfg.anyOf, or_assoc, List.exists_mem_cons_iff]
    simp
  · rw [hgh.allOf, hfg.allOf, or_assoc, List.exists_mem_cons_iff]
    simp

theorem mem_extend_normal {s : TagSet} {ts : List Text} {u : Tag} :
    u ∈ (s.extend (ts.map Tag.normal)).toList ↔ u ∈ s.toList ∨ ∃ t ∈ ts, Tag.normal t = u := by
  rw [TagSet.mem_extend, List.mem_map]

theorem gathers_forbid (f : TagFilter) {raw : Text} (hsome : terms raw ≠ []) (hneg : Negated raw) :
    Gathers f [raw] (f.forbid ((terms raw).map (·.dropWhile (· == '~')))) := by
  have hplain : ¬ ∀ t ∈ terms raw, isNegated t = false := hneg.not_plain hsome
  have hoffers : ∀ u, ¬ Offers raw u := fun u h => hplain h.1.plain
  have hneeds : ∀ u, ¬ Needs raw u := by
    rintro u ⟨t, h, -⟩
    exact hplain h.all_plain
  refine ⟨fun u => ?_, fun u => ?_, fun u => ?_⟩
  · rw [forbid, mem_extend_normal]
    simp [Forbids, hneg, tagOf]
  · simp [forbid, hoffers]
  · simp [forbid, hneeds]

theorem gathers_needAll (f : TagFilter) {raw t : Text} (hsingle : Single raw t) :
    Gathers f [raw] (f.needAll [t]) := by
  have hforbids : ∀ u, ¬ Forbids raw u :=
    fun u h => h.1.not_plain hsingle.ne_nil hsingle.all_plain
  have hoffers : ∀ u, ¬ Offers raw u := by
    intro u h
    have hseveral := h.1.several
    simp [hsingle.only] at hseveral
  have hneeds : ∀ u, Needs raw u ↔ Tag.normal t = u := by
    intro u
    rw [← tagOf_of_plain hsingle.plain]
    refine ⟨?_, fun hu => ⟨t, hsingle, hu⟩⟩
    rintro ⟨s, hs, hu⟩
    obtain rfl : s = t := by simpa using hs.only.symm.trans hsingle.only
    exact hu
  refine ⟨fun u => ?_, fun u => ?_, fun u => ?_⟩
  · simp [needAll, hforbids]
  · simp [needAll, hoffers]
  · rw [needAll, mem_extend_normal]
    simp [hneeds]

theorem gathers_needOne (f : TagFilter) {raw : Text} (hchoice : Choice raw) :
    Gathers f [raw] (f.needOne (terms raw)) := by
  have hforbids : ∀ u, ¬ Forbids raw u :=
    fun u h => h.1.not_plain hchoice.ne_nil hchoice.plain
  have hneeds : ∀ u, ¬ Needs raw u := by
    rintro u ⟨t, hsingle, -⟩
    have hseveral := hchoice.several
    simp [hsingle.only] at hseveral
  have hoffers : ∀ u, Offers raw u ↔ ∃ t ∈ terms raw, Tag.normal t = u := by
    intro u
    rw [Offers, and_iff_right hchoice]
    refine exists_congr fun t => and_congr_right fun ht => ?_
    rw [tagOf_of_plain (hchoice.plain t ht)]
  refine ⟨fun u => ?_, fun u => ?_, fun u => ?_⟩
  · simp [needOne, hforbids]
  · rw [needOne, mem_extend_normal]
    simp [hoffers]
  · simp [needOne, hneeds]

/-- One expression adds what it forbids, offers or needs. -/
theorem gathers_addExpression (f : TagFilter) {raw : Text} {e : Expression}
    (h : ofText raw = .ok e) : Gathers f [raw] (f.addExpression e) := by
  have hreads := reads_ofText raw
  rw [h] at hreads
  cases hreads with
  | noneOf hsome negated => exact gathers_forbid f hsome negated
  | allOf single => exact gathers_needAll f single
  | anyOf choice => exact gathers_needOne f choice

/-! ### Many expressions -/

/-- An expression without a meaning, none of those before it being so. -/
def FirstRefused (raws : List Text) (e : ExpressionError) : Prop :=
  ∃ before raw after, raws = before ++ raw :: after ∧ (∀ r ∈ before, ∀ e', ¬ Refused r e') ∧
    Refused raw e

theorem firstRefused_cons {raw : Text} {raws : List Text} {e : ExpressionError} :
    FirstRefused (raw :: raws) e ↔
      Refused raw e ∨ (∀ e', ¬ Refused raw e') ∧ FirstRefused raws e := by
  constructor
  · rintro ⟨before, r, after, heq, hbefore, hr⟩
    cases before with
    | nil =>
      obtain ⟨rfl, -⟩ := List.cons.inj heq
      exact .inl hr
    | cons x before =>
      obtain ⟨rfl, rfl⟩ := List.cons.inj heq
      obtain ⟨hx, hbefore⟩ := List.forall_mem_cons.1 hbefore
      exact .inr ⟨hx, before, r, after, rfl, hbefore, hr⟩
  · rintro (hr | ⟨hraw, before, r, after, rfl, hbefore, hr⟩)
    · exact ⟨[], raw, raws, rfl, by simp, hr⟩
    · exact ⟨raw :: before, r, after, rfl, List.forall_mem_cons.2 ⟨hraw, hbefore⟩, hr⟩

/-- There is a first expression without a meaning if there is one at all. -/
theorem exists_firstRefused_iff {raws : List Text} :
    (∃ e, FirstRefused raws e) ↔ ∃ raw ∈ raws, ∃ e, Refused raw e := by
  induction raws with
  | nil => simp [FirstRefused]
  | cons raw raws ih =>
    simp only [firstRefused_cons, exists_or, List.exists_mem_cons_iff, exists_and_left, ih]
    by_cases h : ∃ e, Refused raw e
    · simp [h]
    · have hraw : ∀ e, ¬ Refused raw e := not_exists.1 h
      simp [hraw]

theorem addExpressions_eq_error_iff {f : TagFilter} {raws : List Text} {e : ExpressionError} :
    f.addExpressions raws = .error e ↔ FirstRefused raws e := by
  induction raws generalizing f with
  | nil => simp [addExpressions, FirstRefused]
  | cons raw raws ih =>
    rw [firstRefused_cons, ← ofText_eq_error_iff]
    unfold addExpressions
    cases h : ofText raw with
    | ok x =>
      have hraw : ∀ e', ¬ Refused raw e' := by
        intro e' he'
        rw [ofText_eq_error_iff.2 he'] at h
        cases h
      simp [ih, hraw]
    | error x =>
      have hraw : ¬ ∀ e', ¬ Refused raw e' := fun hno => hno x (ofText_eq_error_iff.1 h)
      simp [hraw]

/-- Several expressions add what they forbid, offer and need. -/
theorem gathers_addExpressions {f g : TagFilter} {raws : List Text}
    (h : f.addExpressions raws = .ok g) : Gathers f raws g := by
  induction raws generalizing f with
  | nil =>
    obtain rfl := Except.ok.inj h
    exact Gathers.refl f
  | cons raw raws ih =>
    unfold addExpressions at h
    cases hread : ofText raw with
    | error e => simp [hread] at h
    | ok e =>
      rw [hread] at h
      exact (gathers_addExpression f hread).cons (ih h)

/-! ### Candidates -/

/-- What some expressions together say of a candidate's tags. -/
structure Allowed (raws : List Text) (tags : TagSet) : Prop where
  noneOf : ∀ raw ∈ raws, Negated raw → ∀ t ∈ terms raw, tagOf t ∉ tags.toList
  allOf : ∀ raw ∈ raws, ∀ t, Single raw t → tagOf t ∈ tags.toList
  anyOf : (∃ raw ∈ raws, Choice raw) →
    ∃ raw ∈ raws, Choice raw ∧ ∃ t ∈ terms raw, tagOf t ∈ tags.toList

theorem Allowed.congr {raws raws' : List Text} (h : ∀ raw, raw ∈ raws' ↔ raw ∈ raws)
    {tags : TagSet} (ha : Allowed raws tags) : Allowed raws' tags where
  noneOf := by simpa only [h] using ha.noneOf
  allOf := by simpa only [h] using ha.allOf
  anyOf := by simpa only [h] using ha.anyOf

theorem Gathers.accepts_iff {raws : List Text} {g : TagFilter} (h : Gathers unfiltered raws g)
    (tags : TagSet) : g.accepts tags = true ↔ Allowed raws tags := by
  have hnone : ∀ u, u ∈ g.noneOf.toList ↔ ∃ raw ∈ raws, Forbids raw u := by
    simpa [unfiltered, TagSet.empty] using h.noneOf
  have hany : ∀ u, u ∈ g.anyOf.toList ↔ ∃ raw ∈ raws, Offers raw u := by
    simpa [unfiltered, TagSet.empty] using h.anyOf
  have hall : ∀ u, u ∈ g.allOf.toList ↔ ∃ raw ∈ raws, Needs raw u := by
    simpa [unfiltered, TagSet.empty] using h.allOf
  have hchoice : g.anyOf.toList = [] ↔ ¬ ∃ raw ∈ raws, Choice raw := by
    rw [List.eq_nil_iff_forall_not_mem]
    refine ⟨?_, fun hno u hu => ?_⟩
    · rintro hno ⟨raw, hraw, hc⟩
      obtain ⟨t, ht⟩ := List.exists_mem_of_ne_nil _ hc.ne_nil
      exact hno _ ((hany _).2 ⟨raw, hraw, hc, t, ht, rfl⟩)
    · obtain ⟨raw, hraw, hc, -⟩ := (hany u).1 hu
      exact hno ⟨raw, hraw, hc⟩
  rw [TagFilter.accepts_iff]
  constructor
  · rintro ⟨hfree, hsome, hneeded⟩
    refine ⟨fun raw hraw hneg t ht => ?_, fun raw hraw t hs => ?_, fun hex => ?_⟩
    · exact hfree _ ((hnone _).2 ⟨raw, hraw, hneg, t, ht, rfl⟩)
    · exact hneeded _ ((hall _).2 ⟨raw, hraw, t, hs, rfl⟩)
    · obtain ⟨u, hu, hmem⟩ := hsome.resolve_left fun hnil => hchoice.1 hnil hex
      obtain ⟨raw, hraw, hc, t, ht, rfl⟩ := (hany u).1 hu
      exact ⟨raw, hraw, hc, t, ht, hmem⟩
  · rintro ⟨hfree, hneeded, hsome⟩
    refine ⟨fun u hu => ?_, ?_, fun u hu => ?_⟩
    · obtain ⟨raw, hraw, hneg, t, ht, rfl⟩ := (hnone u).1 hu
      exact hfree raw hraw hneg t ht
    · rw [hchoice, or_iff_not_imp_left, not_not]
      intro hex
      obtain ⟨raw, hraw, hc, t, ht, hmem⟩ := hsome hex
      exact ⟨_, (hany _).2 ⟨raw, hraw, hc, t, ht, rfl⟩, hmem⟩
    · obtain ⟨raw, hraw, t, hs, rfl⟩ := (hall u).1 hu
      exact hneeded raw hraw t hs

section
variable {raws : List Text} {f : TagFilter}

theorem exists_ofExpressions_error_iff :
    (∃ e, ofExpressions raws = .error e) ↔ ∃ raw ∈ raws, ∃ e, Refused raw e := by
  simp only [ofExpressions, addExpressions_eq_error_iff, exists_firstRefused_iff]

theorem accepts_ofExpressions_iff (h : ofExpressions raws = .ok f) (tags : TagSet) :
    f.accepts tags = true ↔ Allowed raws tags :=
  (gathers_addExpressions h).accepts_iff tags

/-- Order and repetition do not count. -/
theorem ofExpressions_congr {raws' : List Text} (hraws : ∀ raw, raw ∈ raws' ↔ raw ∈ raws)
    (h : ofExpressions raws = .ok f) :
    ∃ f', ofExpressions raws' = .ok f' ∧ ∀ tags, f'.accepts tags = f.accepts tags := by
  cases h' : ofExpressions raws' with
  | error e =>
    obtain ⟨raw, hraw, hwhy⟩ := exists_ofExpressions_error_iff.1 ⟨e, h'⟩
    obtain ⟨e, he⟩ := exists_ofExpressions_error_iff.2 ⟨raw, (hraws raw).1 hraw, hwhy⟩
    rw [h] at he
    cases he
  | ok f' =>
    refine ⟨f', rfl, fun tags => ?_⟩
    rw [Bool.eq_iff_iff, accepts_ofExpressions_iff h', accepts_ofExpressions_iff h]
    exact ⟨Allowed.congr fun raw => (hraws raw).symm, Allowed.congr hraws⟩

end

/-- CORRECT (expressions): some expressions make no filter exactly if one of them has no meaning,
    and then the first such one is the error. The filter they make accepts a candidate if it has
    none of the tags of negated expressions, the tag of each expression of one plain term, and one
    of the tags of all the choices together, if there is a choice. So expressions that are the same
    but for their order and repetition make a filter that decides alike. -/
theorem ofExpressions_means (raws : List Text) :
    (∀ e, ofExpressions raws = .error e ↔ FirstRefused raws e) ∧
      ((∃ e, ofExpressions raws = .error e) ↔ ∃ raw ∈ raws, ∃ e, Refused raw e) ∧
      ∀ f, ofExpressions raws = .ok f →
        (∀ tags, f.accepts tags = true ↔ Allowed raws tags) ∧
          ∀ raws', (∀ raw, raw ∈ raws' ↔ raw ∈ raws) →
            ∃ f', ofExpressions raws' = .ok f' ∧ ∀ tags, f'.accepts tags = f.accepts tags :=
  ⟨fun _ => addExpressions_eq_error_iff, exists_ofExpressions_error_iff,
    fun _ hf => ⟨accepts_ofExpressions_iff hf, fun _ hraws => ofExpressions_congr hraws hf⟩⟩

/-- Two choices, a negated and a needed tag, with blanks, blank items and a tag without its `@`. -/
def mixedBag : List Text :=
  ["~@w, ~~ v".toList, "@a, , b".toList, " n ,".toList, "b,@c".toList]

/-- The same expressions in another order, one of them twice. -/
def shuffledBag : List Text :=
  [" n ,".toList, "b,@c".toList, "~@w, ~~ v".toList, " n ,".toList, "@a, , b".toList]

theorem ofExpressions_means_mixedBag :
    ∃ f, ofExpressions mixedBag = .ok f ∧
      (f.accepts ⟨["@n".toList, "@c".toList]⟩ = true ∧
        Allowed mixedBag ⟨["@n".toList, "@c".toList]⟩) ∧
      (∀ t ∈ ["@v".toList, "@w".toList], ¬ Allowed mixedBag ⟨["@n".toList, "@c".toList, t]⟩) ∧
      ¬ Allowed mixedBag ⟨["@n".toList]⟩ ∧
      (∀ raw, raw ∈ shuffledBag ↔ raw ∈ mixedBag) ∧
      ∃ f', ofExpressions shuffledBag = .ok f' ∧
        f'.accepts ⟨["@n".toList, "@c".toList]⟩ = true := by
  have hread : ∃ f, ofExpressions mixedBag = .ok f ∧
      f.accepts ⟨["@n".toList, "@c".toList]⟩ = true ∧
      (∀ t ∈ ["@v".toList, "@w".toList],
        f.accepts ⟨["@n".toList, "@c".toList, t]⟩ = false) ∧
      f.accepts ⟨["@n".toList]⟩ = false := ⟨_, rfl, by decide, by decide, by decide⟩
  obtain ⟨f, hf, hyes, hforbidden, hno⟩ := hread
  have hsame : ∀ raw, raw ∈ shuffledBag ↔ raw ∈ mixedBag := by
    intro raw
    simp only [shuffledBag, mixedBag, List.mem_cons, List.not_mem_nil, or_false]
    tauto
  obtain ⟨hmeans, horder⟩ := (ofExpressions_means mixedBag).2.2 f hf
  obtain ⟨f', hf', hdecides⟩ := horder shuffledBag hsame
  refine ⟨f, hf, ⟨hyes, (hmeans _).1 hyes⟩, fun t ht ha => ?_, fun ha => ?_, hsame, f', hf', ?_⟩
  · have hrefuses := hforbidden t ht
    rw [(hmeans _).2 ha] at hrefuses
    cases hrefuses
  · rw [(hmeans _).2 ha] at hno
    cases hno
  · rw [hdecides, hyes]

end TagFilter
end GherkinIndex
