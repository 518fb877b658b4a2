import GherkinIndex.Proofs.Feature.Visible

/-! Which files are refused, and where.

    Of a whole file only its visible headers decide whether it has a tree. They have to be one
    feature header and then scenarios, outlines and examples, not starting with examples:

        feature ──▶ scenario | outline ──▶ (scenario | outline | examples)*

    The first header that breaks this shape is the error, whatever stands after it. What the machine
    has in hand while it reads is tied to the headers behind it by `Follows`. -/

namespace GherkinIndex

/-- A header and the number of its line. -/
structure Heading where
  line : Nat
  header : Header
  deriving DecidableEq

def Placed.heading? (p : Placed) : Option Heading :=
  match p.mark with
  | .header h _ => some ⟨p.line, h⟩
  | _ => none

/-- The visible header lines of a file in order. -/
def visibleHeadings (text : Text) : List Heading := (visibleMarks text).filterMap Placed.heading?

/-! ### The shape -/

/-- One feature header, then others that do not start with examples. -/
def WellPlaced (hs : List Header) : Prop :=
  ∃ rest, hs = .feature :: rest ∧ .feature ∉ rest ∧ rest.head? ≠ some .examples

/-- Why a header may not stand after the headers `before`. -/
inductive Misfit (before : List Header) : Header → Misplaced → Prop
  | scenario : .feature ∉ before → Misfit before .scenario .scenarioOutsideFeature
  | outline : .feature ∉ before → Misfit before .outline .scenarioOutsideFeature
  | examples : .scenario ∉ before → .outline ∉ before →
      Misfit before .examples .examplesOutsideOutline
  | feature : .feature ∈ before → Misfit before .feature .duplicateFeature

/-- Every header may stand where it does. -/
def Unbroken (hs : List Header) : Prop :=
  ∀ before h after fault, hs = before ++ h :: after → ¬ Misfit before h fault

/-- `p` is the first header that may not stand where it does. -/
def FirstBreak (hs : List Heading) (p : Heading) (fault : Misplaced) : Prop :=
  ∃ before after, hs = before ++ p :: after ∧ Unbroken (before.map (·.header)) ∧
    Misfit (before.map (·.header)) p.header fault

theorem Misfit.unique {before : List Header} {h : Header} {e e' : Misplaced}
    (he : Misfit before h e) (he' : Misfit before h e') : e = e' := by
  cases he <;> cases he' <;> rfl

theorem unbroken_nil : Unbroken [] := by
  intro before h after fault heq
  simp at heq

theorem unbroken_concat {hs : List Header} {h : Header} (hu : Unbroken hs)
    (hh : ∀ fault, ¬ Misfit hs h fault) : Unbroken (hs ++ [h]) := by
  intro before h' after fault heq hm
  rcases List.eq_nil_or_concat after with rfl | ⟨after', x, rfl⟩
  · obtain ⟨rfl, rfl⟩ := List.append_singleton_inj.1 heq
    exact hh fault hm
  · have hcut : hs ++ [h] = (before ++ h' :: after') ++ [x] := by rw [heq]; simp
    exact hu before h' after' fault (List.append_singleton_inj.1 hcut).1 hm

/-- Nothing breaks exactly when there is no header yet or the shape is kept. -/
theorem unbroken_iff {hs : List Header} : Unbroken hs ↔ hs = [] ∨ WellPlaced hs := by
  constructor
  · intro hu
    rcases hs with _ | ⟨h, rest⟩
    · exact .inl rfl
    have hh : h = .feature := by
      have hno : ∀ fault, ¬ Misfit [] h fault := fun fault => hu [] h rest fault rfl
      cases h with
      | feature => rfl
      | scenario => exact absurd (.scenario (by simp)) (hno _)
      | outline => exact absurd (.outline (by simp)) (hno _)
      | examples => exact absurd (.examples (by simp) (by simp)) (hno _)
    subst hh
    refine .inr ⟨rest, rfl, fun hmem => ?_, fun hhead => ?_⟩
    · obtain ⟨a, b, rfl⟩ := List.append_of_mem hmem
      exact hu (.feature :: a) .feature b _ rfl (.feature (by simp))
    · obtain ⟨b, rfl⟩ := List.head?_eq_some_iff.1 hhead
      exact hu [.feature] .examples b _ rfl (.examples (by simp) (by simp))
  · rintro (rfl | ⟨rest, rfl, hone, hhead⟩)
    · exact unbroken_nil
    intro before h after fault heq hm
    rcases before with _ | ⟨x, before⟩
    · obtain ⟨rfl, -⟩ := List.cons.inj heq
      cases hm with
      | feature hmem => simp at hmem
    obtain ⟨rfl, rfl⟩ := List.cons.inj heq
    cases hm with
    | scenario hno => simp at hno
    | outline hno => simp at hno
    | feature => simp at hone
    | examples hs ho =>
      -- neither scenario nor outline nor feature stands between, so examples come first
      rcases before with _ | ⟨y, before⟩
      · simp at hhead
      · cases y <;> simp at hone hhead hs ho

theorem FirstBreak.not_unbroken {hs : List Heading} {p : Heading} {e : Misplaced}
    (hb : FirstBreak hs p e) : ¬ Unbroken (hs.map (·.header)) := by
  obtain ⟨before, after, rfl, -, hm⟩ := hb
  intro hu
  exact hu _ p.header (after.map (·.header)) e (by simp) hm

/-- A header that breaks the shape is not behind the first break. -/
theorem eq_of_misfit {before mid after after' : List Heading} {p p' : Heading} {e : Misplaced}
    (hm : Misfit (before.map (·.header)) p.header e)
    (hu : Unbroken ((before ++ mid).map (·.header))) (h : p :: after = mid ++ p' :: after') :
    mid = [] ∧ p = p' := by
  rcases mid with _ | ⟨x, mid⟩
  · exact ⟨rfl, (List.cons.inj h).1⟩
  · obtain ⟨rfl, -⟩ := List.cons.inj h
    exact absurd hm (hu _ _ (mid.map (·.header)) _ (by simp))

/-- There is at most one first break. -/
theorem FirstBreak.unique {hs : List Heading} {p p' : Heading} {e e' : Misplaced}
    (hb : FirstBreak hs p e) (hb' : FirstBreak hs p' e') : p = p' ∧ e = e' := by
  obtain ⟨before, after, rfl, hu, hm⟩ := hb
  obtain ⟨before', after', heq, hu', hm'⟩ := hb'
  rcases List.append_eq_append_iff.1 heq with ⟨mid, rfl, hmid⟩ | ⟨mid, rfl, hmid⟩
  · obtain ⟨rfl, rfl⟩ := eq_of_misfit hm hu' hmid
    rw [List.append_nil] at hm'
    exact ⟨rfl, hm.unique hm'⟩
  · obtain ⟨rfl, rfl⟩ := eq_of_misfit hm' hu hmid
    rw [List.append_nil] at hm
    exact ⟨rfl, hm.unique hm'⟩

/-! ### What is in hand and what was read -/

/-- Whether a feature is open, and whether something is held in it, is known from the headers. -/
structure Follows (r : Reading) (before : List Header) : Prop where
  feature : r.draft = none ↔ .feature ∉ before
  held : (∀ d, r.draft = some d → d.held = .nothing) ↔ .scenario ∉ before ∧ .outline ∉ before

theorem follows_start (log : List Event) : Follows { log := log } [] := by
  constructor <;> simp

theorem Draft.openBlock_eq_none_iff {f : TagFilter} {d : Draft} {text : Text} {own : TagSet} :
    d.openBlock f text own = none ↔ d.held = .nothing := by
  unfold Draft.openBlock
  cases d.held <;> simp

theorem Draft.held_openBlock {f : TagFilter} {d d' : Draft} {text : Text} {own : TagSet}
    {events : List Event} (h : d.openBlock f text own = some (d', events)) : d'.held ≠ .nothing := by
  unfold Draft.openBlock at h
  cases hd : d.held with
  | nothing => simp [hd] at h
  | scenario s =>
    simp only [hd, Option.some.injEq, Prod.mk.injEq] at h
    simp [← h.1]
  | outline o b =>
    simp only [hd, Option.some.injEq, Prod.mk.injEq] at h
    simp [← h.1]

theorem Draft.held_addRow {d : Draft} {text : Text} :
    (d.addRow text).held = .nothing ↔ d.held = .nothing := by
  cases hd : d.held with
  | outline o b => cases b <;> simp [Draft.addRow, hd]
  | nothing => simp [Draft.addRow, hd]
  | scenario s => simp [Draft.addRow, hd]

/-- A mark that is no header is always taken in. -/
theorem follows_step_other (f : TagFilter) (path : Option Text) {r : Reading} {p : Placed}
    {before : List Header} (hr : Follows r before) (hp : p.heading? = none) :
    ∃ r', r.step f path p.mark = .ok r' ∧ Follows r' before := by
  unfold Placed.heading? at hp
  cases hm : p.mark with
  | header h t => simp [hm] at hp
  | tags ts => exact ⟨_, rfl, hr.feature, hr.held⟩
  | row t =>
    refine ⟨_, rfl, ?_, ?_⟩
    · simpa using hr.feature
    · simpa [Draft.held_addRow] using hr.held

/-- A header is taken in unless it is a misfit. -/
theorem follows_step_header (f : TagFilter) (path : Option Text) {r : Reading} {h : Header}
    {before : List Header} (text : Text) (hr : Follows r before) :
    (∃ r', r.step f path (.header h text) = .ok r' ∧ Follows r' (before ++ [h]) ∧
        ∀ fault, ¬ Misfit before h fault) ∨
      ∃ fault, r.step f path (.header h text) = .error fault ∧ Misfit before h fault := by
  obtain ⟨own, draft, log⟩ := r
  cases draft with
  | none =>
    have hfeature : .feature ∉ before := hr.feature.1 rfl
    have hheld : .scenario ∉ before ∧ .outline ∉ before := hr.held.1 (by simp)
    cases h with
    | feature =>
      refine .inl ⟨_, rfl, ⟨by simp, by simpa using hheld⟩, ?_⟩
      rintro _ (_ | _ | _ | hmem)
      exact hfeature hmem
    | scenario => exact .inr ⟨_, rfl, .scenario hfeature⟩
    | outline => exact .inr ⟨_, rfl, .outline hfeature⟩
    | examples => exact .inr ⟨_, rfl, .examples hheld.1 hheld.2⟩
  | some d =>
    have hfeature : .feature ∈ before := by
      by_contra hno
      simpa using hr.feature.2 hno
    cases h with
    | feature => exact .inr ⟨_, rfl, .feature hfeature⟩
    | scenario =>
      refine .inl ⟨_, rfl, ⟨by simp [hfeature], by simp⟩, ?_⟩
      rintro _ (hno | _)
      exact hno hfeature
    | outline =>
      refine .inl ⟨_, rfl, ⟨by simp [hfeature], by simp⟩, ?_⟩
      rintro _ (_ | hno)
      exact hno hfeature
    | examples =>
      have hnothing : d.held = .nothing ↔ .scenario ∉ before ∧ .outline ∉ before := by
        simpa using hr.held
      cases ho : d.openBlock f text own with
      | none =>
        have hnone := hnothing.1 (Draft.openBlock_eq_none_iff.1 ho)
        exact .inr ⟨_, by simp only [Reading.step, Option.bind_some, ho],
          .examples hnone.1 hnone.2⟩
      | some opened =>
        obtain ⟨d', events⟩ := opened
        have hsome : ¬ d.held = .nothing := fun h => by
          simp [Draft.openBlock_eq_none_iff.2 h] at ho
        refine .inl ⟨⟨.empty, some d', log ++ events⟩,
          by simp only [Reading.step, Option.bind_some, ho], ⟨by simp [hfeature], ?_⟩, ?_⟩
        · simpa [Draft.held_openBlock ho] using mt hnothing.2 hsome
        · rintro _ (_ | _ | ⟨hs, ho⟩)
          exact hsome (hnothing.2 ⟨hs, ho⟩)

/-- A run ends at the first break, or takes in headers that do not break the shape. -/
theorem run_follows (f : TagFilter) (path : Option Text) {r : Reading} (before : List Heading)
    (ps : List Placed) (hr : Follows r (before.map (·.header)))
    (hu : Unbroken (before.map (·.header))) :
    match r.run f path ps with
    | (r', none) =>
      Follows r' ((before ++ ps.filterMap Placed.heading?).map (·.header)) ∧
        Unbroken ((before ++ ps.filterMap Placed.heading?).map (·.header))
    | (_, some e) =>
      ∃ p, FirstBreak (before ++ ps.filterMap Placed.heading?) p e.fault ∧ e.line = p.line := by
  induction ps generalizing r before with
  | nil => simpa [Reading.run] using ⟨hr, hu⟩
  | cons p ps ih =>
    cases hp : p.heading? with
    | none =>
      obtain ⟨r', hstep, hr'⟩ := follows_step_other f path hr hp
      rw [Reading.run, hstep, List.filterMap_cons_none hp]
      exact ih before hr' hu
    | some q =>
      obtain ⟨line, mark⟩ := p
      cases mark with
      | tags => simp [Placed.heading?] at hp
      | row => simp [Placed.heading?] at hp
      | header h text =>
        obtain rfl : ⟨line, h⟩ = q := by simpa [Placed.heading?] using hp
        rw [List.filterMap_cons_some hp]
        rcases follows_step_header f path text hr with
          ⟨r', hstep, hr', hfit⟩ | ⟨fault, hstep, hfit⟩
        · rw [Reading.run, hstep, List.append_cons]
          exact ih (before ++ [⟨line, h⟩]) (by simpa using hr')
            (by simpa using unbroken_concat hu hfit)
        · rw [Reading.run, hstep]
          exact ⟨⟨line, h⟩, ⟨before, _, rfl, hu, hfit⟩, rfl⟩

/-! ### The verdict -/

/-- A file breaks somewhere, or has no header, or has a tree. -/
theorem result_cases (f : TagFilter) (path : Option Text) (text : Text) :
    (∃ p e, FirstBreak (visibleHeadings text) p e.fault ∧ e.line = p.line ∧
        (parse f path text).result = .error e) ∨
      (visibleHeadings text = [] ∧ (parse f path text).result =
        .error ⟨max 1 (fileLines text).length, .missingFeature⟩) ∨
      (WellPlaced ((visibleHeadings text).map (·.header)) ∧
        ∃ n, (parse f path text).result = .ok n) := by
  have hrun := run_follows f path [] (visibleMarks text)
    (follows_start (Locale.choose path (fileLines text).head?).2) unbroken_nil
  rw [List.nil_append, ← visibleHeadings] at hrun
  rw [parse_eq_run]
  generalize Reading.run f path _ (visibleMarks text) = out at hrun ⊢
  obtain ⟨r, _ | e⟩ := out
  · obtain ⟨hr, hu⟩ := hrun
    rcases unbroken_iff.1 hu with hnil | hwell
    · have hdraft : r.draft = none := hr.feature.2 (by simp [hnil])
      refine .inr (.inl ⟨by simpa using hnil, ?_⟩)
      simp [Reading.finish, hdraft]
    · refine .inr (.inr ⟨hwell, ?_⟩)
      cases hd : r.draft with
      | none =>
        obtain ⟨rest, hrest, -⟩ := hwell
        exact absurd (hr.feature.1 hd) (by simp [hrest])
      | some d => exact ⟨(d.settle f).1, by simp [Reading.finish, hd]⟩
  · obtain ⟨p, hbreak, hline⟩ := hrun
    exact .inl ⟨p, e, hbreak, hline, rfl⟩

theorem FirstBreak.ne_nil {hs : List Heading} {p : Heading} {e : Misplaced}
    (hb : FirstBreak hs p e) : hs ≠ [] := by
  rintro rfl
  exact hb.not_unbroken unbroken_nil

theorem FirstBreak.not_wellPlaced {hs : List Heading} {p : Heading} {e : Misplaced}
    (hb : FirstBreak hs p e) : ¬ WellPlaced (hs.map (·.header)) :=
  fun hw => hb.not_unbroken (unbroken_iff.2 (.inr hw))

/-- A file has a tree exactly when its headers keep the shape, whatever the filter. -/
theorem result_ok_iff {f : TagFilter} {path : Option Text} {text : Text} :
    (∃ n, (parse f path text).result = .ok n) ↔
      WellPlaced ((visibleHeadings text).map (·.header)) := by
  rcases result_cases f path text with ⟨p, e, hb, -, hres⟩ | ⟨hnil, hres⟩ | ⟨hw, hres⟩
  · simp [hres, hb.not_wellPlaced]
  · simp [hres, hnil, WellPlaced]
  · exact ⟨fun _ => hw, fun _ => hres⟩

/-- A file is refused at its first break, or for want of headers, whatever the filter. -/
theorem result_error_iff {f : TagFilter} {path : Option Text} {text : Text} {e : ParseError} :
    (parse f path text).result = .error e ↔
      (∃ p, FirstBreak (visibleHeadings text) p e.fault ∧ e.line = p.line) ∨
        visibleHeadings text = [] ∧
          e = ⟨max 1 (fileLines text).length, .missingFeature⟩ := by
  constructor
  · intro he
    rcases result_cases f path text with ⟨p, e', hb, hline, hres⟩ | ⟨hnil, hres⟩ | ⟨-, n, hres⟩
    · obtain rfl : e' = e := by simpa [hres] using he
      exact .inl ⟨p, hb, hline⟩
    · exact .inr ⟨hnil, by simpa [hres] using he.symm⟩
    · simp [hres] at he
  · rintro (⟨p, hb, hline⟩ | ⟨hnil, rfl⟩)
    · rcases result_cases f path text with ⟨p', e', hb', hline', hres⟩ | ⟨hnil, -⟩ | ⟨hw, -⟩
      · obtain ⟨rfl, hfault⟩ := hb.unique hb'
        obtain ⟨line, fault⟩ := e
        obtain ⟨line', fault'⟩ := e'
        obtain rfl : fault = fault' := hfault
        rw [hres, show line' = line from hline'.trans hline.symm]
      · exact absurd hnil hb.ne_nil
      · exact absurd hw hb.not_wellPlaced
    · rcases result_cases f path text with ⟨p, e, hb, -⟩ | ⟨-, hres⟩ | ⟨hw, -⟩
      · exact absurd hnil hb.ne_nil
      · exact hres
      · simp [hnil, WellPlaced] at hw

/-- CORRECT (verdict): a file has a tree exactly when its visible headers are one feature header and
    then scenarios, outlines and examples that do not start with examples. Otherwise the error is
    the first header that breaks this shape, with its line, or the missing feature header with the
    number of lines, at least one. -/
theorem parse_accepts_shape_and_blames_first_break (f : TagFilter) (path : Option Text)
    (text : Text) :
    ((∃ n, (parse f path text).result = .ok n) ↔
        WellPlaced ((visibleHeadings text).map (·.header))) ∧
      ∀ e, (parse f path text).result = .error e ↔
        (∃ p, FirstBreak (visibleHeadings text) p e.fault ∧ e.line = p.line) ∨
          visibleHeadings text = [] ∧
            e = ⟨max 1 (fileLines text).length, .missingFeature⟩ :=
  ⟨result_ok_iff, fun _ => result_error_iff⟩

end GherkinIndex
