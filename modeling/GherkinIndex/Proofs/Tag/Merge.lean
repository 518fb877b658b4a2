import GherkinIndex.Proofs.Tag.Expression

/-! Filters put together.

    Merging two filters adds the tags of the second to the first, criterion by criterion, and so do
    the expressions behind those that make the first. A candidate then has to satisfy the exclusions
    and the demands of both. Choices are another matter: two of them become one wider choice, and a
    tag of either is enough.

        ~@w, @a     with   @b       none @w    all @a @b
        @a,@b       with   @c       any @a @b @c, which @c alone satisfies -/

namespace GherkinIndex.TagFilter

/-! ### Criteria side by side -/

theorem merge_assoc (f g h : TagFilter) : (f.merge g).merge h = f.merge (g.merge h) := by
  simp only [merge, TagSet.union_assoc]

theorem merge_unfiltered (f : TagFilter) : f.merge .unfiltered = f := rfl

/-- What is added to the second of two filters is added to both together. -/
theorem merge_addExpression (f g : TagFilter) (e : Expression) :
    f.merge (g.addExpression e) = (f.merge g).addExpression e := by
  cases e with
  | noneOf ts => simp only [addExpression, forbid, merge, TagSet.union_extend]
  | anyOf ts => simp only [addExpression, needOne, merge, TagSet.union_extend]
  | allOf t => simp only [addExpression, needAll, merge, TagSet.union_extend]

theorem addExpressions_cons (f : TagFilter) (raw : Text) (raws : List Text) :
    f.addExpressions (raw :: raws) =
      (Expression.ofText raw).bind fun e => (f.addExpression e).addExpressions raws := by
  rw [addExpressions]
  cases Expression.ofText raw <;> rfl

theorem addExpressions_append (f : TagFilter) (xs ys : List Text) :
    f.addExpressions (xs ++ ys) = (f.addExpressions xs).bind (·.addExpressions ys) := by
  induction xs generalizing f with
  | nil => rfl
  | cons x xs ih =>
    rw [List.cons_append, addExpressions_cons, addExpressions_cons]
    cases Expression.ofText x with
    | error e => rfl
    | ok e => exact ih (f.addExpression e)

theorem addExpressions_merge (f g : TagFilter) (raws : List Text) :
    (f.merge g).addExpressions raws = (g.addExpressions raws).map f.merge := by
  induction raws generalizing g with
  | nil => rfl
  | cons raw raws ih =>
    rw [addExpressions_cons, addExpressions_cons]
    cases Expression.ofText raw with
    | error e => rfl
    | ok e =>
      have hnext := ih (g.addExpression e)
      rw [merge_addExpression] at hnext
      exact hnext

/-- Expressions make a filter in two parts, and the first part that fails decides. -/
theorem ofExpressions_append (xs ys : List Text) :
    ofExpressions (xs ++ ys) = do
      let f ← ofExpressions xs
      let g ← ofExpressions ys
      return f.merge g := by
  rw [ofExpressions, addExpressions_append, ← ofExpressions]
  refine congrArg (ofExpressions xs).bind (funext fun f => ?_)
  have hadd := addExpressions_merge f .unfiltered ys
  rw [merge_unfiltered] at hadd
  rw [hadd, ← ofExpressions]
  cases ofExpressions ys <;> rfl

/-! ### Filters that can be made -/

/-- A filter that is put together from nothing. -/
inductive Made : TagFilter → Prop
  | unfiltered : Made .unfiltered
  | forbid {f : TagFilter} (made : Made f) (tags : List Text) : Made (f.forbid tags)
  | needOne {f : TagFilter} (made : Made f) (tags : List Text) : Made (f.needOne tags)
  | needAll {f : TagFilter} (made : Made f) (tags : List Text) : Made (f.needAll tags)
  | merge {f g : TagFilter} (left : Made f) (right : Made g) : Made (f.merge g)

/-- No tag stands twice in a criterion. -/
structure Distinct (f : TagFilter) : Prop where
  noneOf : f.noneOf.toList.Nodup
  anyOf : f.anyOf.toList.Nodup
  allOf : f.allOf.toList.Nodup

theorem Made.distinct {f : TagFilter} (h : f.Made) : f.Distinct := by
  induction h with
  | unfiltered => exact ⟨List.nodup_nil, List.nodup_nil, List.nodup_nil⟩
  | forbid _ tags ih => exact { ih with noneOf := TagSet.nodup_extend _ ih.noneOf }
  | needOne _ tags ih => exact { ih with anyOf := TagSet.nodup_extend _ ih.anyOf }
  | needAll _ tags ih => exact { ih with allOf := TagSet.nodup_extend _ ih.allOf }
  | merge _ _ hf _ =>
    exact ⟨TagSet.nodup_extend _ hf.noneOf, TagSet.nodup_extend _ hf.anyOf,
      TagSet.nodup_extend _ hf.allOf⟩

theorem Made.add {f : TagFilter} (h : f.Made) (c : Criteria) : (f.add c).Made :=
  ((h.needOne c.anyOf).needAll c.allOf).forbid c.noneOf

theorem Made.addExpression {f : TagFilter} (h : f.Made) (e : Expression) :
    (f.addExpression e).Made := by
  cases e with
  | noneOf ts => exact h.forbid ts
  | anyOf ts => exact h.needOne ts
  | allOf t => exact h.needAll [t]

theorem Made.addExpressions {f g : TagFilter} {raws : List Text} (hf : f.Made)
    (h : f.addExpressions raws = .ok g) : g.Made := by
  induction raws generalizing f with
  | nil =>
    obtain rfl := Except.ok.inj h
    exact hf
  | cons raw raws ih =>
    rw [addExpressions_cons] at h
    cases hread : Expression.ofText raw with
    | error e =>
      rw [hread] at h
      cases h
    | ok e =>
      rw [hread] at h
      exact ih (hf.addExpression e) h

theorem unfiltered_merge {f : TagFilter} (h : f.Distinct) : TagFilter.unfiltered.merge f = f := by
  have hnone := TagSet.empty_union h.noneOf
  have hany := TagSet.empty_union h.anyOf
  have hall := TagSet.empty_union h.allOf
  simp only [merge, unfiltered, hnone, hany, hall]

/-! ### Candidates -/

/-- What two filters ask of a candidate together: to have none of the tags that either excludes, all
    those that either demands, and one of those that either offers, if they offer any. -/
structure Together (f g : TagFilter) (tags : TagSet) : Prop where
  noneOf : ∀ t ∈ f.noneOf.toList ++ g.noneOf.toList, t ∉ tags.toList
  allOf : ∀ t ∈ f.allOf.toList ++ g.allOf.toList, t ∈ tags.toList
  anyOf : f.anyOf.toList ++ g.anyOf.toList ≠ [] →
    ∃ t ∈ f.anyOf.toList ++ g.anyOf.toList, t ∈ tags.toList

theorem accepts_merge_iff_together {f g : TagFilter} {tags : TagSet} :
    (f.merge g).accepts tags = true ↔ Together f g tags := by
  have hmem (s o : TagSet) (t : Tag) : t ∈ (s.union o).toList ↔ t ∈ s.toList ++ o.toList := by
    rw [TagSet.mem_union, List.mem_append]
  have hnil : (f.anyOf.union g.anyOf).toList = [] ↔ f.anyOf.toList ++ g.anyOf.toList = [] := by
    simp only [List.eq_nil_iff_forall_not_mem, hmem]
  rw [accepts_iff]
  simp only [merge, hmem, hnil]
  constructor
  · rintro ⟨hfree, hsome, hneeded⟩
    exact ⟨hfree, hneeded, hsome.resolve_left⟩
  · rintro ⟨hfree, hneeded, hsome⟩
    exact ⟨hfree, or_iff_not_imp_left.2 hsome, hneeded⟩

/-- Where one of two filters offers no choice, both together ask what each of them asks. -/
theorem together_iff_of_anyOf_nil {f g : TagFilter}
    (h : f.anyOf.toList = [] ∨ g.anyOf.toList = []) (tags : TagSet) :
    Together f g tags ↔ f.accepts tags = true ∧ g.accepts tags = true := by
  rw [accepts_iff, accepts_iff]
  constructor
  · rintro ⟨hfree, hneeded, hsome⟩
    rw [List.forall_mem_append] at hfree hneeded
    rcases h with hf | hg
    · rw [hf, List.nil_append] at hsome
      exact ⟨⟨hfree.1, .inl hf, hneeded.1⟩, hfree.2, or_iff_not_imp_left.2 hsome, hneeded.2⟩
    · rw [hg, List.append_nil] at hsome
      exact ⟨⟨hfree.1, or_iff_not_imp_left.2 hsome, hneeded.1⟩, hfree.2, .inl hg, hneeded.2⟩
  · rintro ⟨⟨hfreef, hsomef, hneededf⟩, hfreeg, hsomeg, hneededg⟩
    refine ⟨List.forall_mem_append.2 ⟨hfreef, hfreeg⟩,
      List.forall_mem_append.2 ⟨hneededf, hneededg⟩, ?_⟩
    rcases h with hf | hg
    · rw [hf, List.nil_append]
      exact hsomeg.resolve_left
    · rw [hg, List.append_nil]
      exact hsomef.resolve_left

/-- CORRECT (merging): the filter of some expressions and then others is that of the first
    merged with that of the others, criterion by criterion in order, and if one of them fails, the
    first to do so is the error. Merging is associative, and the unfiltered filter changes nothing on
    either side of a filter that expressions, criteria or merges have made. A merge keeps what each
    filter excludes and demands, and takes a tag of either choice for both; where one of them offers
    no choice, it accepts what both accept. -/
theorem merge_composes :
    (∀ xs ys, ofExpressions (xs ++ ys) = do
        let f ← ofExpressions xs
        let g ← ofExpressions ys
        return f.merge g) ∧
      (∀ f g h : TagFilter, (f.merge g).merge h = f.merge (g.merge h)) ∧
      (∀ f : TagFilter, f.Made → f.merge .unfiltered = f ∧ TagFilter.unfiltered.merge f = f) ∧
      (∀ raws f, ofExpressions raws = .ok f → f.Made) ∧
      (∀ f c, Made f → Made (f.add c)) ∧
      ∀ (f g : TagFilter) (tags : TagSet),
        ((f.merge g).accepts tags = true ↔ Together f g tags) ∧
        (f.anyOf.isEmpty = true ∨ g.anyOf.isEmpty = true →
          ((f.merge g).accepts tags = true ↔ f.accepts tags = true ∧ g.accepts tags = true)) := by
  refine ⟨ofExpressions_append, merge_assoc, fun f hf => ?_, fun raws f hf => ?_,
    fun _ c hf => hf.add c, fun f g tags => ?_⟩
  · exact ⟨merge_unfiltered f, unfiltered_merge hf.distinct⟩
  · exact Made.unfiltered.addExpressions hf
  · refine ⟨accepts_merge_iff_together, fun hempty => ?_⟩
    simp only [TagSet.isEmpty, List.isEmpty_iff] at hempty
    rw [accepts_merge_iff_together, together_iff_of_anyOf_nil hempty]

/-- Expressions with an exclusion, a choice and a demand. -/
def strictBag : List Text := ["~@w".toList, "@a, b".toList, "n".toList]

/-- Expressions with another choice. -/
def wideBag : List Text := ["@c,@a".toList]

/-- Expressions without a choice. -/
def plainBag : List Text := ["@n".toList, "~@v".toList]

/-- A tag of the second choice is enough for both, though the first filter alone wants its own. -/
theorem merge_composes_strictBag :
    ∃ f g h, ofExpressions strictBag = .ok f ∧ ofExpressions wideBag = .ok g ∧
      ofExpressions plainBag = .ok h ∧ ofExpressions (strictBag ++ wideBag) = .ok (f.merge g) ∧
      f.Made ∧ TagFilter.unfiltered.merge f = f ∧
      Together f g ⟨["@n".toList, "@c".toList]⟩ ∧
      f.accepts ⟨["@n".toList, "@c".toList]⟩ = false ∧
      h.anyOf.isEmpty = true ∧ (f.merge h).accepts ⟨["@n".toList, "@b".toList]⟩ = true := by
  have hread : ∃ f g h, ofExpressions strictBag = .ok f ∧ ofExpressions wideBag = .ok g ∧
      ofExpressions plainBag = .ok h ∧
      (f.merge g).accepts ⟨["@n".toList, "@c".toList]⟩ = true ∧
      f.accepts ⟨["@n".toList, "@c".toList]⟩ = false ∧ h.anyOf.isEmpty = true ∧
      f.accepts ⟨["@n".toList, "@b".toList]⟩ = true ∧
      h.accepts ⟨["@n".toList, "@b".toList]⟩ = true :=
    ⟨_, _, _, rfl, rfl, rfl, by decide, by decide, by decide, by decide, by decide⟩
  obtain ⟨f, g, h, hf, hg, hh, hwide, hstrict, hempty, hfb, hhb⟩ := hread
  obtain ⟨hparts, -, hunit, hmade, -, haccepts⟩ := merge_composes
  refine ⟨f, g, h, hf, hg, hh, ?_, hmade _ f hf, (hunit f (hmade _ f hf)).2, ?_, hstrict, hempty, ?_⟩
  · rw [hparts, hf, hg]
    rfl
  · exact (haccepts f g _).1.1 hwide
  · exact ((haccepts f h _).2 (.inr hempty)).2 ⟨hfb, hhb⟩

end GherkinIndex.TagFilter
