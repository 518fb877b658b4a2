import GherkinIndex.Proofs.Feature.Classified
import GherkinIndex.Proofs.Feature.Extension
import GherkinIndex.Proofs.Feature.Inert

/-! Two spellings of a template.

    A scenario followed by examples is an outline by another name. The machine holds the two in
    different places until the examples arrive, and from then on it holds the same. If none arrive,
    the scenario is offered to the feature and the outline is dropped; everything behind is read
    alike.

        held        scenario s        outline s, no block
          @a, |x|   scenario s        outline s, no block
          Examples  outline s + e  =  outline s + e
          Scenario  feature + s       feature -/

namespace GherkinIndex

/-! ### Templates -/

/-- An examples header comes before any further scenario or outline header. -/
def Templated (ms : List Mark) : Prop :=
  ∃ between e more, ms = between ++ .header .examples e :: more ∧
    ∀ m ∈ between, m.construct? = none

theorem not_templated_nil : ¬ Templated [] := by
  rintro ⟨between, e, more, h, -⟩
  simp at h

theorem templated_cons {m : Mark} {ms : List Mark} :
    Templated (m :: ms) ↔
      (∃ e, m = .header .examples e) ∨ m.construct? = none ∧ Templated ms := by
  constructor
  · rintro ⟨between, e, more, h, hbetween⟩
    cases between with
    | nil => exact .inl ⟨e, (List.cons.inj h).1⟩
    | cons b between =>
      obtain ⟨rfl, rfl⟩ := List.cons.inj h
      rw [List.forall_mem_cons] at hbetween
      exact .inr ⟨hbetween.1, between, e, more, rfl, hbetween.2⟩
  · rintro (⟨e, rfl⟩ | ⟨hm, between, e, more, rfl, hbetween⟩)
    · exact ⟨[], e, ms, rfl, by simp⟩
    · exact ⟨m :: between, e, more, rfl, List.forall_mem_cons.2 ⟨hm, hbetween⟩⟩

instance decidableTemplated : (ms : List Mark) → Decidable (Templated ms)
  | [] => .isFalse not_templated_nil
  | m :: ms =>
    have := decidableTemplated ms
    match m with
    | .header .examples e => .isTrue (templated_cons.2 (.inl ⟨e, rfl⟩))
    | .tags ts | .row t | .header .feature t | .header .scenario t | .header .outline t =>
      decidable_of_iff (_ = none ∧ Templated ms) (by rw [templated_cons, or_iff_right (by simp)])

/-- Where no examples come first there is no block of the construct before. -/
theorem blocksAhead_of_not_templated {ms : List Mark} (h : ¬ Templated ms) (before : List Mark) :
    blocksAhead (sections before ms) = [] := by
  induction ms generalizing before with
  | nil => rfl
  | cons m ms ih =>
    rw [templated_cons, not_or, not_and] at h
    cases m with
    | tags ts => exact ih (h.2 rfl) _
    | row t => exact ih (h.2 rfl) _
    | header k t =>
      rw [sections_header]
      refine blocksAhead_other (fun hk => h.1 ⟨t, ?_⟩) _
      rw [show k = .examples from hk]

/-! ### Two runs -/

/-- Readings that differ in their logs at most. -/
structure Alike (r r' : Reading) : Prop where
  pending : r.pending = r'.pending
  draft : r.draft = r'.draft

/-- The two spellings of one header, held back. -/
structure Spelled (r r' : Reading) : Prop where
  pending : r.pending = r'.pending
  held : ∃ feature s, r.draft = some ⟨feature, .scenario s⟩ ∧
    r'.draft = some ⟨feature, .outline { s with kind := .outline } none⟩

section
variable (f : TagFilter) (path : Option Text)

/-- Both readings refuse their mark for one fault, or take it in and are related then. -/
def StepTo (R : Reading → Reading → Prop) (r r' : Reading) (m m' : Mark) : Prop :=
  (∃ fault, r.step f path m = .error fault ∧ r'.step f path m' = .error fault) ∨
    ∃ q q', r.step f path m = .ok q ∧ r'.step f path m' = .ok q' ∧ R q q'

theorem Alike.step {r r' : Reading} (h : Alike r r') (m : Mark) :
    StepTo f path Alike r r' m m := by
  obtain ⟨own, draft, log⟩ := r
  obtain ⟨own', draft', log'⟩ := r'
  obtain ⟨rfl, rfl⟩ : own = own' ∧ draft = draft' := ⟨h.pending, h.draft⟩
  cases m with
  | tags ts => exact .inr ⟨_, _, rfl, rfl, rfl, rfl⟩
  | row t => exact .inr ⟨_, _, rfl, rfl, rfl, rfl⟩
  | header k t =>
    cases draft with
    | none =>
      cases k with
      | feature => exact .inr ⟨_, _, rfl, rfl, rfl, rfl⟩
      | scenario => exact .inl ⟨_, rfl, rfl⟩
      | outline => exact .inl ⟨_, rfl, rfl⟩
      | examples => exact .inl ⟨_, rfl, rfl⟩
    | some d =>
      cases k with
      | feature => exact .inl ⟨_, rfl, rfl⟩
      | scenario => exact .inr ⟨_, _, rfl, rfl, rfl, rfl⟩
      | outline => exact .inr ⟨_, _, rfl, rfl, rfl, rfl⟩
      | examples =>
        cases ho : d.openBlock f t own with
        | none =>
          refine .inl ⟨.examplesOutsideOutline, ?_, ?_⟩ <;>
            simp only [Reading.step, Option.bind_some, ho]
        | some opened =>
          refine .inr ⟨⟨.empty, some opened.1, log ++ opened.2⟩,
            ⟨.empty, some opened.1, log' ++ opened.2⟩, ?_, ?_, rfl, rfl⟩ <;>
            simp only [Reading.step, Option.bind_some, ho]

/-- Until examples arrive the two spellings stay apart by their place only; then they are one. -/
theorem Spelled.step {r r' : Reading} (h : Spelled r r') {m : Mark} (hm : m.construct? = none) :
    StepTo f path (fun q q' => Alike q q' ∨ (∀ e, m ≠ .header .examples e) ∧ Spelled q q')
      r r' m m := by
  obtain ⟨own, draft, log⟩ := r
  obtain ⟨own', draft', log'⟩ := r'
  obtain ⟨rfl, feature, s, rfl, rfl⟩ : own = own' ∧ ∃ feature s,
      draft = some ⟨feature, .scenario s⟩ ∧
        draft' = some ⟨feature, .outline { s with kind := .outline } none⟩ := ⟨h.pending, h.held⟩
  cases m with
  | tags ts => exact .inr ⟨_, _, rfl, rfl, .inr ⟨by simp, rfl, feature, s, rfl, rfl⟩⟩
  | row t => exact .inr ⟨_, _, rfl, rfl, .inr ⟨by simp, rfl, feature, s, rfl, rfl⟩⟩
  | header k t =>
    cases k with
    | feature => exact .inl ⟨_, rfl, rfl⟩
    | scenario => cases hm
    | outline => cases hm
    | examples => exact .inr ⟨_, _, rfl, rfl, .inl ⟨rfl, rfl⟩⟩

/-- A header is refused in both spellings, or puts the two in hand. -/
theorem spelled_step (r : Reading) (t : Text) :
    StepTo f path Spelled r r (.header .scenario t) (.header .outline t) := by
  obtain ⟨own, draft, log⟩ := r
  cases draft with
  | none => exact .inl ⟨_, rfl, rfl⟩
  | some d => exact .inr ⟨_, _, rfl, rfl, rfl, _, _, rfl, rfl⟩

variable (count : Nat) (opened : Option Fence)

/-- What a run comes to, from a reading on. -/
def resultOf (r : Reading) (ps : List Placed) : Except ParseError Node :=
  (conclude f path count opened (r.run f path ps)).result

theorem resultOf_cons {R : Reading → Reading → Prop} {r r' : Reading} {m m' : Mark} {line : Nat}
    {ps : List Placed} (h : StepTo f path R r r' m m') (hrest : ∀ q q', R q q' →
      resultOf f path count opened q ps = resultOf f path count opened q' ps) :
    resultOf f path count opened r (⟨line, m⟩ :: ps) =
      resultOf f path count opened r' (⟨line, m'⟩ :: ps) := by
  rcases h with ⟨fault, hr, hr'⟩ | ⟨q, q', hr, hr', hR⟩
  · simp only [resultOf, Reading.run, hr, hr', conclude]
  · simpa only [resultOf, Reading.run, hr, hr'] using hrest q q' hR

theorem Alike.resultOf_eq {r r' : Reading} (h : Alike r r') (ps : List Placed) :
    resultOf f path count opened r ps = resultOf f path count opened r' ps := by
  induction ps generalizing r r' with
  | nil =>
    simp only [resultOf, Reading.run, conclude, Reading.finish, h.draft]
    cases r'.draft <;> rfl
  | cons p ps ih => exact resultOf_cons f path count opened (h.step f path p.mark) fun _ _ => ih

/-- The spelling of a header leaves no trace once examples have arrived. -/
theorem Spelled.resultOf_eq {r r' : Reading} (h : Spelled r r') {ps : List Placed}
    (ht : Templated (ps.map (·.mark))) :
    resultOf f path count opened r ps = resultOf f path count opened r' ps := by
  induction ps generalizing r r' with
  | nil => exact absurd ht not_templated_nil
  | cons p ps ih =>
    rw [List.map_cons, templated_cons] at ht
    have hconstruct : p.mark.construct? = none := by
      rcases ht with ⟨e, he⟩ | ⟨hnone, -⟩
      · rw [he]
        rfl
      · exact hnone
    refine resultOf_cons f path count opened (h.step f path hconstruct) fun q q' hq => ?_
    rcases hq with halike | ⟨hno, hspelled⟩
    · exact halike.resultOf_eq f path count opened ps
    · rw [← not_exists] at hno
      exact ih hspelled (ht.resolve_left hno).2

end

/-! ### Files -/

/-- Classified lines with a header among them. -/
def withHeader (before after : List (Option Line)) (k : Header) (t : Text) : List (Option Line) :=
  before ++ some (.mark (.header k t)) :: after

/-- The marks behind a header, given the lines before it. -/
def marksBehindHeader (before after : List (Option Line)) : List Placed :=
  marks (before.foldl Fence.after none) (before.length + 2) after

section
variable (f : TagFilter) (path : Option Text) (note : List Event)
variable (before after : List (Option Line)) (t : Text)

theorem marks_withHeader (k : Header) :
    marks none 1 (withHeader before after k t) = marks none 1 before ++
      (markOf (before.foldl Fence.after none) (before.length + 1)
        (some (.mark (.header k t)))).toList ++ marksBehindHeader before after := by
  rw [withHeader, marks_append, marks, after_mark, Nat.add_comm 1, ← List.append_assoc]
  rfl

theorem foldl_withHeader (k : Header) : (withHeader before after k t).foldl Fence.after none =
    after.foldl Fence.after (before.foldl Fence.after none) := by
  rw [withHeader, List.foldl_append, List.foldl_cons, after_mark]

theorem length_withHeader (k : Header) :
    (withHeader before after k t).length = before.length + after.length + 1 := by
  rw [withHeader, List.length_append, List.length_cons, Nat.add_assoc]

/-- A file with a visible header is read up to the header and then on from there. -/
theorem readLines_withHeader (hvisible : before.foldl Fence.after none = none) (k : Header) :
    (readLines f path note (withHeader before after k t)).result =
      match Reading.run f path { log := note } (marks none 1 before) with
      | (_, some e) => .error e
      | (r, none) => resultOf f path (before.length + after.length + 1)
          (after.foldl Fence.after none) r
          (⟨before.length + 1, .header k t⟩ :: marksBehindHeader before after) := by
  rw [readLines, marks_withHeader, foldl_withHeader, length_withHeader, hvisible, List.append_assoc,
    Reading.run_append]
  generalize Reading.run f path _ (marks none 1 before) = out
  obtain ⟨r, _ | e⟩ := out <;> rfl

/-- A hidden header may be spelled in any way. -/
theorem readLines_hidden (hhidden : before.foldl Fence.after none ≠ none) (k k' : Header) :
    readLines f path note (withHeader before after k t) =
      readLines f path note (withHeader before after k' t) := by
  simp only [readLines, marks_withHeader, foldl_withHeader, length_withHeader]
  generalize before.foldl Fence.after none = opened at hhidden ⊢
  cases opened with
  | none => exact absurd rfl hhidden
  | some fence => rfl

theorem readLines_templated
    (ht : Templated ((marksBehindHeader before after).map (·.mark))) :
    (readLines f path note (withHeader before after .scenario t)).result =
      (readLines f path note (withHeader before after .outline t)).result := by
  by_cases hvisible : before.foldl Fence.after none = none
  · rw [readLines_withHeader _ _ _ _ _ _ hvisible, readLines_withHeader _ _ _ _ _ _ hvisible]
    generalize Reading.run f path _ (marks none 1 before) = out
    obtain ⟨r, _ | e⟩ := out
    · exact resultOf_cons f path _ _ (spelled_step f path r t) fun _ _ h =>
        h.resultOf_eq f path _ _ ht
    · rfl
  · rw [readLines_hidden f path note before after t hvisible .scenario .outline]

end

/-! ### Without examples -/

/-- The tags of a stretch that wait for a header behind it. -/
def tagsSince (ms : List Mark) : List Tag := tagsIn (ms.rtakeWhile (!·.isHeader))

/-- What the filter leaves of the scenarios and outlines of a stretch. -/
def keptIn (f : TagFilter) (feature : TagSet) (ms : List Mark) : List Node :=
  (constructs (sections [] ms)).filterMap fun c => (c.node? feature).bind (Node.keep f)

/-- A reading that has just put the construct of a header in hand. -/
def Reading.holding (root : Node) (s : Section) (log : List Event) : Reading :=
  ⟨.empty, some ⟨root, s.held root.tags⟩, log⟩

/-- What the filter leaves of a scenario or outline without examples. -/
def keptBare (f : TagFilter) (feature : TagSet) (s : Section) : List Node :=
  (((⟨s, []⟩ : Construct).node? feature).bind (Node.keep f)).toList

theorem keptBare_scenario (f : TagFilter) (feature : TagSet) (t : Text) (own : List Tag) :
    keptBare f feature ⟨.scenario, t, own, []⟩ =
      let s := Section.node .scenario true feature ⟨.scenario, t, own, []⟩
      if f.accepts s.tags then [s] else [] := by
  have hkind (s : Section) : (s.node .scenario true feature).kind = .scenario := rfl
  simp only [keptBare, Construct.node?, if_true, Option.bind_some, Node.keep_of_scenario f (hkind _)]
  split <;> rfl

theorem keptBare_outline (f : TagFilter) (feature : TagSet) (t : Text) (own : List Tag) :
    keptBare f feature ⟨.outline, t, own, []⟩ = [] := rfl

theorem Draft.tags_settle (f : TagFilter) (d : Draft) :
    (d.settle f).1.tags = d.feature.tags := by
  obtain ⟨feature, held⟩ := d
  cases held with
  | nothing => rfl
  | scenario s =>
    simp only [settle, Node.offer]
    split <;> rfl
  | outline o b =>
    simp only [settle]
    split <;> rfl

section
variable {f : TagFilter} {path : Option Text} {note : List Event}

/-- A mark that is taken in leaves in hand the tags behind the last header. -/
theorem Reading.pending_step {r r' : Reading} {m : Mark} (h : r.step f path m = .ok r')
    {ms : List Mark} (hr : r.pending = .ofList (tagsSince ms)) :
    r'.pending = .ofList (tagsSince (ms ++ [m])) := by
  cases m with
  | tags ts =>
    obtain rfl : _ = r' := Except.ok.inj h
    rw [tagsSince, List.rtakeWhile_concat_pos _ _ _ rfl, ← ofList_tagsIn_extend, ← tagsSince, ← hr]
  | row t =>
    obtain rfl : _ = r' := Except.ok.inj h
    rw [tagsSince, List.rtakeWhile_concat_pos _ _ _ rfl, tagsIn_concat_row, ← tagsSince, ← hr]
  | header k t =>
    have hempty : r'.pending = .empty := by
      cases k <;> simp only [step] at h <;> split at h <;> cases h <;> rfl
    rw [tagsSince, List.rtakeWhile_concat_neg _ _ _ (by simp [Mark.isHeader]), hempty]
    rfl

theorem Reading.pending_run {ps : List Placed} {r : Reading}
    (h : Reading.run f path { log := note } ps = (r, none)) :
    r.pending = .ofList (tagsSince (ps.map (·.mark))) := by
  induction ps using List.reverseRecOn generalizing r with
  | nil =>
    obtain rfl : _ = r := (Prod.mk.inj h).1
    rfl
  | append_singleton ps p ih =>
    rw [Reading.run_append] at h
    generalize hrun : Reading.run f path { log := note } ps = out at h
    obtain ⟨q, _ | e⟩ := out
    · obtain ⟨r₁, hstep, hlast⟩ := Reading.step_of_run f path h
      obtain rfl : r₁ = r := (Prod.mk.inj hlast).1
      rw [List.map_append, List.map_singleton]
      exact Reading.pending_step hstep (ih hrun)
    · simp at h

/-- A header below the feature settles what is in hand and is in hand itself. -/
theorem Reading.step_construct {k : Header} (hk : k = .scenario ∨ k = .outline) (t : Text)
    {r : Reading} {d : Draft} (hd : r.draft = some d) {own : List Tag}
    (hown : r.pending = .ofList own) :
    ∃ log, r.step f path (.header k t) =
      .ok (.holding (d.settle f).1 ⟨k, t, own, []⟩ log) := by
  obtain ⟨pending, draft, log⟩ := r
  obtain ⟨rfl, rfl⟩ : pending = .ofList own ∧ draft = some d := ⟨hown, hd⟩
  have hnode (kind : Kind) : Section.node kind true d.feature.tags ⟨k, t, own, []⟩ =
      Draft.child kind true t d.feature.tags (.ofList own) :=
    (child_eq_node kind true d.feature.tags ⟨k, t, own, []⟩).symm
  refine ⟨log ++ (d.settle f).2, ?_⟩
  rw [holding, Draft.tags_settle]
  rcases hk with rfl | rfl
  · have hheld : Section.held d.feature.tags ⟨.scenario, t, own, []⟩ =
        .scenario (Section.node .scenario true d.feature.tags ⟨.scenario, t, own, []⟩) := rfl
    rw [hheld, hnode]
    rfl
  · have hheld : Section.held d.feature.tags ⟨.outline, t, own, []⟩ =
        .outline (Section.node .outline true d.feature.tags ⟨.outline, t, own, []⟩) none := rfl
    rw [hheld, hnode]
    rfl

/-- A construct in hand is all that the headers so far tell. -/
theorem follows_holding (root : Node) (s : Section) (log : List Event) :
    Follows (.holding root s log) [.feature, .scenario] := by
  have hheld : s.held root.tags ≠ .nothing := by
    unfold Section.held
    split <;> simp
  exact ⟨by simp [Reading.holding], by simp [Reading.holding, hheld]⟩

/-- Readings that follow the same headers reach the end of a file together. -/
theorem resultOf_ok_of_follows {before : List Heading} {r r' : Reading}
    (hr : Follows r (before.map (·.header))) (hr' : Follows r' (before.map (·.header)))
    (hu : Unbroken (before.map (·.header))) {count : Nat} {opened : Option Fence}
    {ps : List Placed} {n : Node} (h : resultOf f path count opened r ps = .ok n) :
    ∃ n', resultOf f path count opened r' ps = .ok n' := by
  have hrun := run_follows f path before ps hr hu
  have hrun' := run_follows f path before ps hr' hu
  rw [resultOf] at h ⊢
  generalize r.run f path ps = out at h hrun
  generalize r'.run f path ps = out' at hrun' ⊢
  obtain ⟨q, _ | e⟩ := out
  · obtain ⟨q', _ | e'⟩ := out'
    · cases hd' : q'.draft with
      | none =>
        have hd : q.draft = none := hrun.1.feature.2 (hrun'.1.feature.1 hd')
        simp [conclude, Reading.finish, hd] at h
      | some d => exact ⟨(d.settle f).1, by simp [conclude, Reading.finish, hd']⟩
    · obtain ⟨p, hbreak, -⟩ := hrun'
      exact absurd hrun.2 hbreak.not_unbroken
  · simp [conclude] at h

section
variable {root : Node} {cs : List Node} (hroot : root.children = Node.renumber cs)
variable {ps : List Placed} (ht : ¬ Templated (ps.map (·.mark)))
variable {count : Nat} {opened : Option Fence}
include hroot ht

/-- Without examples a construct in hand leaves what the filter makes of it alone. -/
theorem resultOf_holding {s : Section} {log : List Event} {n : Node}
    (h : resultOf f path count opened (.holding root s log) ps = .ok n) :
    n = root.withChildren (Node.renumber (root.children ++ keptBare f root.tags s ++
      keptIn f root.tags (ps.map (·.mark)))) := by
  rw [resultOf] at h
  generalize hrun : Reading.run f path _ ps = out at h
  obtain ⟨r, _ | e⟩ := out
  · obtain ⟨d, hd, hnode, -⟩ := run_completes f path [] hroot (s.held_ready _) hrun
    have hn : n = (d.settle f).1 := by simpa [conclude, Reading.finish, hd] using h.symm
    have hfates : (((⟨s, []⟩ : Construct).fate f root.tags ::
          (constructs (sections [] (ps.map (·.mark)))).map (·.fate f root.tags)).filterMap
        (·.node)) = keptBare f root.tags s ++ keptIn f root.tags (ps.map (·.mark)) := by
      have hnodes : (Fate.node ∘ Construct.fate f root.tags) = fun c =>
          (c.node? root.tags).bind (Node.keep f) := funext fun c => c.fate_node f root.tags
      rw [List.filterMap_cons, List.filterMap_map, hnodes, keptBare, keptIn, Construct.fate_node]
      cases ((⟨s, []⟩ : Construct).node? root.tags).bind (Node.keep f) <;> rfl
    rw [hn, hnode, Section.held_fate, blocksAhead_of_not_templated ht, hfates, hroot]
    congr 1
    apply Node.renumber_congr
    simp only [List.map_append, Node.map_unnumber_renumber, List.append_assoc]
  · simp [conclude] at h

/-- If one construct in hand comes to a tree, so does any other. -/
theorem resultOf_other {s : Section} {log : List Event} {n : Node}
    (h : resultOf f path count opened (.holding root s log) ps = .ok n) (s' : Section)
    (log' : List Event) : resultOf f path count opened (.holding root s' log') ps =
      .ok (root.withChildren (Node.renumber (root.children ++ keptBare f root.tags s' ++
        keptIn f root.tags (ps.map (·.mark))))) := by
  have hfollows (s : Section) (log : List Event) : Follows (.holding root s log)
      ([⟨0, .feature⟩, ⟨0, .scenario⟩].map Heading.header) := follows_holding root s log
  have hu : Unbroken ([⟨0, .feature⟩, ⟨0, .scenario⟩].map Heading.header) :=
    unbroken_iff.2 (.inr ⟨[.scenario], rfl, by simp, by simp⟩)
  obtain ⟨n', hn'⟩ := resultOf_ok_of_follows (hfollows s log) (hfollows s' log') hu h
  rw [hn', resultOf_holding hroot ht hn']

end

/-- A visible header without examples leaves the same before and behind it in both spellings. -/
theorem readLines_bare {before after : List (Option Line)} {t : Text}
    (hvisible : before.foldl Fence.after none = none)
    (ht : ¬ Templated ((marksBehindHeader before after).map (·.mark))) {k : Header}
    (hk : k = .scenario ∨ k = .outline) {n : Node}
    (h : (readLines f path note (withHeader before after k t)).result = .ok n) :
    ∃ root, (readLines f path note before).result = .ok root ∧
      ∀ k', k' = .scenario ∨ k' = .outline →
        (readLines f path note (withHeader before after k' t)).result =
          .ok (root.withChildren (Node.renumber (root.children ++
            keptBare f root.tags ⟨k', t, tagsSince ((marks none 1 before).map (·.mark)), []⟩ ++
            keptIn f root.tags ((marksBehindHeader before after).map (·.mark))))) := by
  simp only [readLines_withHeader f path note before after t hvisible] at h ⊢
  rw [readLines]
  generalize hrun : Reading.run f path { log := note } (marks none 1 before) = out at h ⊢
  obtain ⟨r, _ | e⟩ := out
  · cases hd : r.draft with
    | none =>
      -- a construct outside a feature is refused
      have hstep : r.step f path (.header k t) = .error .scenarioOutsideFeature := by
        rcases hk with rfl | rfl <;> simp only [Reading.step, hd]
      simp [resultOf, Reading.run, hstep, conclude] at h
    | some d =>
      obtain ⟨s, ss, -, d', hd', hsettle, -⟩ := run_grouped f path [] (by simp [hd]) hrun
      obtain rfl : d = d' := by simpa [hd] using hd'
      have hroot : (d.settle f).1.children = Node.renumber
          ([] ++ (fates f (s :: ss)).filterMap (·.node)) := by rw [hsettle]; rfl
      have hheld : ∀ {j}, j = .scenario ∨ j = .outline → ∃ log, r.step f path (.header j t) =
          .ok (.holding (d.settle f).1
            ⟨j, t, tagsSince ((marks none 1 before).map (·.mark)), []⟩ log) :=
        fun hj => Reading.step_construct hj t hd (Reading.pending_run hrun)
      obtain ⟨log, hstep⟩ := hheld hk
      refine ⟨(d.settle f).1, by simp [conclude, Reading.finish, hd], fun k' hk' => ?_⟩
      obtain ⟨log', hstep'⟩ := hheld hk'
      simp only [resultOf, Reading.run, hstep] at h
      simp only [resultOf, Reading.run, hstep']
      exact resultOf_other hroot ht h _ log'
  · cases h

end

/-- CORRECT (templates): a text is read by its classified lines, and among those a scenario header
    may be spelled as an outline header. If it is hidden, or if examples come before any further
    scenario or outline, the file keeps its tree, or its error. If it is visible and no examples
    come, both spellings have a tree or none has. Both trees have the children of the lines before
    and those of the constructs behind; the scenario stands between them if the filter accepts its
    tags, and the outline never does. -/
theorem scenario_spelled_as_outline (f : TagFilter) (path : Option Text) :
    (∀ text, parse f path text = readLines f path (Locale.choose path (fileLines text).head?).2
        ((fileLines text).map (Line.classify (fileLocale text)))) ∧
      ∀ (note : List Event) (before after : List (Option Line)) (t : Text),
        let read (ks : List (Option Line)) := (readLines f path note ks).result
        let spelled := (withHeader before after · t)
        let opened := before.foldl Fence.after none
        let above := (marks none 1 before).map (·.mark)
        let behind := (marksBehindHeader before after).map (·.mark)
        (opened ≠ none ∨ Templated behind → read (spelled .scenario) = read (spelled .outline)) ∧
          (opened = none → ¬ Templated behind → ∀ k, k = .scenario ∨ k = .outline →
            ∀ n, read (spelled k) = .ok n → ∃ root, read before = .ok root ∧
              let s := Section.node .scenario true root.tags ⟨.scenario, t, tagsSince above, []⟩
              let rest := keptIn f root.tags behind
              read (spelled .scenario) = .ok (root.withChildren (Node.renumber
                  (root.children ++ (if f.accepts s.tags then [s] else []) ++ rest))) ∧
                read (spelled .outline) = .ok (root.withChildren (Node.renumber
                  (root.children ++ rest)))) := by
  refine ⟨parse_eq_readLines f path, ?_⟩
  intro note before after t read spelled opened above behind
  refine ⟨?_, fun hvisible ht k hk n hn => ?_⟩
  · rintro (hhidden | ht)
    · exact congrArg Parsed.result
        (readLines_hidden f path note before after t hhidden .scenario .outline)
    · exact readLines_templated f path note before after t ht
  · obtain ⟨root, hroot, hboth⟩ := readLines_bare hvisible ht hk hn
    refine ⟨root, hroot, ?_, ?_⟩
    · rw [← keptBare_scenario]
      exact hboth .scenario (.inl rfl)
    · rw [← List.append_nil root.children, ← keptBare_outline f root.tags t (tagsSince above)]
      exact hboth .outline (.inr rfl)

/-- Lines above a scenario that is tagged. -/
def taggedAbove : List (Option Line) :=
  [some (.mark (.header .feature "Feature: f".toList)), some (.mark (.tags ["@a".toList]))]

/-- A tag, a hidden scenario and a stray row before the examples. -/
def examplesBelow : List (Option Line) :=
  [some (.mark (.tags ["@b".toList])), some (.fence ⟨.quotes, none⟩),
    some (.mark (.header .scenario "Scenario: x".toList)), some (.fence ⟨.quotes, none⟩),
    some (.mark (.row "|r|".toList)), none, some (.mark (.header .examples "Examples: e".toList))]

/-- A second scenario before the examples. -/
def scenarioBelow : List (Option Line) :=
  [some (.mark (.tags ["@a".toList])), some (.mark (.header .scenario "Scenario: s".toList)),
    some (.mark (.header .examples "Examples: e".toList))]

theorem scenario_spelled_as_outline_below_taggedAbove :
    let f := TagFilter.unfiltered.needAll ["@a".toList]
    let read (ks : List (Option Line)) := (readLines f none [] ks).result
    let spelled (below : List (Option Line)) (k : Header) :=
      withHeader taggedAbove below k "Scenario: s".toList
    let shown (r : Except ParseError Node) :=
      r.map fun n => n.children.map fun c => (c.kind, c.number)
    Templated ((marksBehindHeader taggedAbove examplesBelow).map (·.mark)) ∧
      shown (read (spelled examplesBelow .scenario)) = .ok [(.outline, none)] ∧
      read (spelled examplesBelow .scenario) = read (spelled examplesBelow .outline) ∧
      taggedAbove.foldl Fence.after none = none ∧
      ¬ Templated ((marksBehindHeader taggedAbove scenarioBelow).map (·.mark)) ∧
      shown (read (spelled scenarioBelow .scenario)) =
        .ok [(.scenario, none), (.outline, some 2)] ∧
      shown (read (spelled scenarioBelow .outline)) = .ok [(.outline, none)] ∧
      ∃ root rest, read taggedAbove = .ok root ∧ read (spelled scenarioBelow .outline) =
        .ok (root.withChildren (Node.renumber (root.children ++ rest))) := by
  intro f read spelled shown
  obtain ⟨hsame, -⟩ := (scenario_spelled_as_outline f none).2 [] taggedAbove examplesBelow
    "Scenario: s".toList
  obtain ⟨-, hbare⟩ := (scenario_spelled_as_outline f none).2 [] taggedAbove scenarioBelow
    "Scenario: s".toList
  have htemplated : Templated ((marksBehindHeader taggedAbove examplesBelow).map (·.mark)) := by
    decide
  have hvisible : taggedAbove.foldl Fence.after none = none := rfl
  have hnot : ¬ Templated ((marksBehindHeader taggedAbove scenarioBelow).map (·.mark)) := by
    decide
  have hread : ∃ n, read (spelled scenarioBelow .scenario) = .ok n := ⟨_, rfl⟩
  obtain ⟨n, hn⟩ := hread
  obtain ⟨root, hroot, -, houtline⟩ := hbare hvisible hnot .scenario (.inl rfl) n hn
  exact ⟨htemplated, rfl, hsame (.inr htemplated), hvisible, hnot, rfl, rfl, root, _, hroot,
    houtline⟩

end GherkinIndex
