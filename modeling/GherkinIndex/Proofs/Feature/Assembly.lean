import Mathlib.Data.List.Basic
import GherkinIndex.Proofs.Feature.Fate
import GherkinIndex.Proofs.Feature.Verdict

/-! The machine puts together what the cuts group.

    One mark changes what is in hand, and the marks ahead shrink by it; the fates of what is in hand
    and of the constructs ahead stay the same. So a run that reaches the end of a file has appended
    the fates of all its constructs, one after the other. -/

namespace GherkinIndex

/-- `r` ends in `feature`, with children `cs` before, followed by the fates. -/
def Completes (f : TagFilter) (r : Reading) (feature : Node) (cs : List Node) (log : List Event)
    (fates : List Fate) : Prop :=
  ∃ d, r.draft = some d ∧
    (d.settle f).1 = feature.withChildren (Node.renumber (cs ++ fates.filterMap (·.node))) ∧
    r.log ++ (d.settle f).2 = log ++ fates.flatMap (·.log)

section
variable {f : TagFilter} {r : Reading} {feature : Node} {cs : List Node} {log : List Event}
  {fates : List Fate}

/-- A fate that is settled belongs to what was there before the others. -/
theorem Completes.cons {x : Fate}
    (h : Completes f r (feature.withChildren (Node.renumber (cs ++ x.node.toList)))
      (cs ++ x.node.toList) (log ++ x.log) fates) :
    Completes f r feature cs log (x :: fates) := by
  obtain ⟨d, hd, hnode, hlog⟩ := h
  refine ⟨d, hd, ?_, ?_⟩
  · rw [hnode, Node.withChildren_withChildren, List.append_assoc]
    cases hx : x.node <;> simp [hx]
  · rw [hlog, List.flatMap_cons, List.append_assoc]

/-- Events that are logged early belong to the fate they are a part of. -/
theorem Completes.log_cons {x : Fate} {events : List Event}
    (h : Completes f r feature cs (log ++ events) (x :: fates)) :
    Completes f r feature cs log (⟨x.node, events ++ x.log⟩ :: fates) := by
  obtain ⟨d, hd, hnode, hlog⟩ := h
  refine ⟨d, hd, by simpa [List.filterMap_cons] using hnode, ?_⟩
  rw [hlog, List.flatMap_cons, List.flatMap_cons, List.append_assoc, List.append_assoc]

/-- What never was in hand leaves no trace. -/
theorem Completes.of_nothing (h : Completes f r feature cs log (⟨none, []⟩ :: fates)) :
    Completes f r feature cs log fates := by
  simpa [Completes] using h

end

/-! ### One mark -/

/-- A row goes to the block in hand, if there is one. -/
theorem Draft.addRow_fate (f : TagFilter) {d : Draft} (hd : d.held.Ready) (t : Text) :
    (d.addRow t).feature = d.feature ∧ (d.addRow t).held.Ready ∧
      ∀ rows blocks, (d.addRow t).held.fate f rows blocks = d.held.fate f (t :: rows) blocks := by
  obtain ⟨feature, held⟩ := d
  cases held with
  | nothing => exact ⟨rfl, hd, fun _ _ => rfl⟩
  | scenario s => exact ⟨rfl, hd, fun _ _ => rfl⟩
  | outline o b =>
    cases b with
    | none => exact ⟨rfl, hd, fun _ _ => rfl⟩
    | some x =>
      refine ⟨rfl, ⟨hd.1, ?_⟩, fun _ _ => rfl⟩
      rintro y ⟨rfl⟩
      exact hd.2 x rfl

/-- An examples header puts the first block ahead in hand. -/
theorem Draft.openBlock_fate {f : TagFilter} {d d' : Draft} {s : Section} {events : List Event}
    (hd : d.held.Ready) (hs : d.openBlock f s.text (.ofList s.own) = some (d', events)) :
    d'.feature = d.feature ∧ d'.held.Ready ∧ ∀ blocks,
      d.held.fate f [] (s :: blocks) =
        ⟨(d'.held.fate f s.rows blocks).node, events ++ (d'.held.fate f s.rows blocks).log⟩ := by
  obtain ⟨feature, held⟩ := d
  cases held with
  | nothing => simp [openBlock] at hs
  | scenario sc =>
    simp only [openBlock, Option.some.injEq, Prod.mk.injEq] at hs
    obtain ⟨rfl, rfl⟩ := hs
    refine ⟨rfl, ⟨⟨hd.numbered, hd.number⟩, ?_⟩, fun blocks => ?_⟩
    · rintro x ⟨rfl⟩
      rfl
    · simp [Held.fate, child_eq_node, addRows_node]
  | outline o b =>
    obtain ⟨cs, hcs⟩ := closeBlock_withChildren f o b
    have hclose := outlineFate_closeBlock f o hd.2
    simp only [openBlock, Option.some.injEq, Prod.mk.injEq] at hs
    obtain ⟨rfl, rfl⟩ := hs
    refine ⟨rfl, ⟨?_, ?_⟩, fun blocks => ?_⟩
    · rw [hcs]
      exact ⟨hd.1.numbered, hd.1.number⟩
    · rintro x ⟨rfl⟩
      rfl
    · simp [Held.fate, hclose, hcs, child_eq_node, addRows_node]

section
variable (f : TagFilter) (path : Option Text)

theorem Reading.step_tags (r : Reading) (ts : List Tag) :
    r.step f path (.tags ts) = .ok ⟨r.pending.extend ts, r.draft, r.log⟩ := rfl

theorem Reading.step_row (r : Reading) (t : Text) :
    r.step f path (.row t) = .ok ⟨r.pending, r.draft.map (·.addRow t), r.log⟩ := rfl

theorem Reading.run_cons_ok {r r' : Reading} {p : Placed} (h : r.step f path p.mark = .ok r')
    (ps : List Placed) : r.run f path (p :: ps) = r'.run f path ps := by
  rw [Reading.run, h]

/-- A run that reaches the end of a file has taken in its first mark. -/
theorem Reading.step_of_run {r r' : Reading} {p : Placed} {ps : List Placed}
    (h : r.run f path (p :: ps) = (r', none)) :
    ∃ r₁, r.step f path p.mark = .ok r₁ ∧ r₁.run f path ps = (r', none) := by
  rw [Reading.run] at h
  cases hstep : r.step f path p.mark with
  | error fault => simp [hstep] at h
  | ok r₁ => exact ⟨r₁, rfl, by simpa [hstep] using h⟩

/-- The tags waiting for a header after one more tag line. -/
theorem ofList_tagsIn_extend (before : List Mark) (ts : List Tag) :
    (TagSet.ofList (tagsIn before)).extend ts = .ofList (tagsIn (before ++ [.tags ts])) := by
  rw [tagsIn_concat_tags, TagSet.ofList, ← TagSet.extend_append, ← TagSet.ofList]

/-- The tags that have been waiting for the first header. -/
theorem ofList_eq_inherit (ts : List Tag) : TagSet.ofList ts = ⟨Tag.inherit [] ts⟩ :=
  congrArg TagSet.mk (TagSet.toList_extend .empty ts)

end

/-- A header behind the feature that is taken in settles what is in hand and puts its construct
    there, or opens its block there. -/
theorem Reading.step_header_ok {f : TagFilter} {path : Option Text} {d : Draft} {log : List Event}
    {s : Section} {r : Reading}
    (h : Reading.step f path ⟨.ofList s.own, some d, log⟩ (.header s.header s.text) = .ok r) :
    ((s.header = .scenario ∨ s.header = .outline) ∧
        r = ⟨.empty, some ⟨(d.settle f).1, s.held d.feature.tags⟩, log ++ (d.settle f).2⟩) ∨
      s.header = .examples ∧ ∃ d' events,
        d.openBlock f s.text (.ofList s.own) = some (d', events) ∧
          r = ⟨.empty, some d', log ++ events⟩ := by
  cases hs : s.header with
  | feature => simp [hs, Reading.step] at h
  | scenario =>
    refine .inl ⟨.inl rfl, ?_⟩
    simpa [hs, Reading.step, Section.held, ← child_eq_node, Draft.hold] using h.symm
  | outline =>
    refine .inl ⟨.inr rfl, ?_⟩
    simpa [hs, Reading.step, Section.held, ← child_eq_node, Draft.hold] using h.symm
  | examples =>
    refine .inr ⟨rfl, ?_⟩
    simp only [hs, Reading.step, Option.bind_some] at h
    cases ho : d.openBlock f s.text (.ofList s.own) with
    | none => simp [ho] at h
    | some opened =>
      obtain ⟨d', events⟩ := opened
      exact ⟨d', events, rfl, by simpa [ho] using h.symm⟩

/-- What becomes of a construct is settled when its header is met and its rows mean nothing. -/
theorem Section.held_fate (f : TagFilter) (feature : TagSet) (s : Section) (rows : List Text)
    (blocks : List Section) :
    (s.held feature).fate f rows blocks = Construct.fate f feature ⟨s, blocks⟩ := by
  unfold Construct.fate Section.held
  split <;> rfl

/-! ### A run -/

/-- A run from a feature in hand ends with the fates of what is in hand and of the constructs
    ahead. -/
theorem run_completes (f : TagFilter) (path : Option Text) (before : List Mark) {ps : List Placed}
    {d : Draft} {log : List Event} {r : Reading} {cs : List Node}
    (hc : d.feature.children = Node.renumber cs) (hd : d.held.Ready)
    (hrun : Reading.run f path ⟨.ofList (tagsIn before), some d, log⟩ ps = (r, none)) :
    let ms := ps.map (·.mark)
    let ss := sections before ms
    Completes f r d.feature cs log (d.held.fate f (rowsAhead ms) (blocksAhead ss) ::
      (constructs ss).map (·.fate f d.feature.tags)) := by
  induction ps generalizing before d log cs with
  | nil =>
    obtain rfl : _ = r := (Prod.mk.inj hrun).1
    refine ⟨d, rfl, ?_⟩
    rw [Draft.settle_eq f hc hd]
    cases hn : (d.held.fate f [] []).node <;>
      simp [sections, rowsAhead, rowsIn, blocksAhead, constructs, hn]
  | cons p ps ih =>
    obtain ⟨line, mark⟩ := p
    cases mark with
    | tags ts =>
      rw [Reading.run_cons_ok f path (Reading.step_tags ..), ofList_tagsIn_extend] at hrun
      simpa only [List.map_cons, rowsAhead_tags, sections_tags] using ih _ hc hd hrun
    | row t =>
      obtain ⟨hfeature, hready, hfate⟩ := d.addRow_fate f hd t
      rw [Reading.run_cons_ok f path (Reading.step_row ..), ← tagsIn_concat_row before t] at hrun
      have hrest := ih _ (hfeature ▸ hc) hready hrun
      simp only [hfeature, hfate] at hrest
      simpa only [List.map_cons, rowsAhead_row, sections_row] using hrest
    | header h t =>
      simp only [List.map_cons, rowsAhead_header, sections_header]
      generalize hs : (⟨h, t, tagsIn before, rowsAhead (ps.map (·.mark))⟩ : Section) = s
      have hrows : s.rows = rowsAhead (ps.map (·.mark)) := by rw [← hs]
      have hmark : Mark.header h t = .header s.header s.text := by rw [← hs]
      have hown : tagsIn before = s.own := by rw [← hs]
      rw [hmark, hown] at hrun
      obtain ⟨r₁, hstep, hrun⟩ := Reading.step_of_run f path hrun
      rcases Reading.step_header_ok hstep with ⟨hcon, rfl⟩ | ⟨hex, d', events, ho, rfl⟩
      · rw [Draft.settle_eq f hc hd] at hrun
        have hrest := ih [] rfl (s.held_ready _) hrun
        simp only [Section.held_fate, Node.tags_withChildren] at hrest
        rw [blocksAhead_construct hcon, constructs_construct hcon]
        exact hrest.cons
      · obtain ⟨hfeature, hready, hfate⟩ := Draft.openBlock_fate hd ho
        have hrest := ih [] (hfeature ▸ hc) hready hrun
        simp only [hfeature] at hrest
        rw [blocksAhead_examples hex, constructs_examples hex, hfate, hrows]
        exact hrest.log_cons

/-- A run that finds a feature ends with the fates of the constructs behind it. -/
theorem run_grouped (f : TagFilter) (path : Option Text) (before : List Mark) {ps : List Placed}
    {log : List Event} {r : Reading} (hr : r.draft ≠ none)
    (hrun : Reading.run f path ⟨.ofList (tagsIn before), none, log⟩ ps = (r, none)) :
    ∃ s ss, sections before (ps.map (·.mark)) = s :: ss ∧
      Completes f r (s.feature path) [] log (fates f (s :: ss)) := by
  induction ps generalizing before with
  | nil =>
    obtain rfl : _ = r := (Prod.mk.inj hrun).1
    exact absurd rfl hr
  | cons p ps ih =>
    obtain ⟨line, mark⟩ := p
    cases mark with
    | tags ts =>
      rw [Reading.run_cons_ok f path (Reading.step_tags ..), ofList_tagsIn_extend] at hrun
      exact ih _ hrun
    | row t =>
      rw [Reading.run_cons_ok f path (Reading.step_row ..), ← tagsIn_concat_row before t] at hrun
      exact ih _ hrun
    | header h t =>
      obtain ⟨r₁, hstep, hrun⟩ := Reading.step_of_run f path hrun
      cases h with
      | scenario => simp [Reading.step] at hstep
      | outline => simp [Reading.step] at hstep
      | examples => simp [Reading.step] at hstep
      | feature =>
        obtain rfl : _ = r₁ := Except.ok.inj hstep
        refine ⟨_, _, rfl, ?_⟩
        rw [ofList_eq_inherit] at hrun
        have hready : Held.Ready .nothing := trivial
        exact (run_completes f path [] rfl hready hrun).of_nothing

/-- The tree of a file that has one, and the events on the way: the fates of its constructs. -/
theorem parse_eq_fates {f : TagFilter} {path : Option Text} {text : Text} {n : Node}
    (h : (parse f path text).result = .ok n) :
    ∃ s ss, fileSections text = s :: ss ∧
      n = (s.feature path).withChildren
        (Node.renumber ((fates f (s :: ss)).filterMap (·.node))) ∧
      (parse f path text).log = (Locale.choose path (fileLines text).head?).2 ++
        (fates f (s :: ss)).flatMap (·.log) ++
        if (openOn (fileLines text) (fileLines text).length).isSome then
          [.docStringLeftOpen path] else [] := by
  rw [parse_eq_run] at h ⊢
  generalize hout : Reading.run f path _ (visibleMarks text) = out at h ⊢
  obtain ⟨r, _ | e⟩ := out
  · cases hd : r.draft with
    | none => simp [Reading.finish, hd] at h
    | some d =>
      obtain ⟨s, ss, hss, d', hd', hnode, hlog⟩ := run_grouped f path [] (by simp [hd]) hout
      obtain rfl : d = d' := by simpa [hd] using hd'
      refine ⟨s, ss, hss, ?_, ?_⟩
      · rw [List.nil_append] at hnode
        rw [← hnode]
        simpa [Reading.finish, hd] using h.symm
      · simp [Reading.finish, hd, ← hlog]
  · simp at h

/-! ### Without a filter -/

theorem TagFilter.accepts_unfiltered (tags : TagSet) : unfiltered.accepts tags = true := by
  simp [accepts, unfiltered, TagSet.intersects, TagSet.includes, TagSet.empty, TagSet.isEmpty]

theorem outlineFate_unfiltered (o : Node) (blocks : List Node) :
    (outlineFate .unfiltered o blocks).node =
      if o.children ++ blocks = [] then none else some (o.withChildren (o.children ++ blocks)) := by
  have hall : blocks.filter (TagFilter.unfiltered.accepts ·.tags) = blocks :=
    List.filter_eq_self.2 fun b _ => TagFilter.accepts_unfiltered b.tags
  rw [outlineFate, hall]
  split <;> rfl

/-- Without a filter a construct leaves the node of its group. -/
theorem Construct.fate_unfiltered (feature : TagSet) (c : Construct) :
    (c.fate .unfiltered feature).node = c.node? feature := by
  obtain ⟨s, blocks⟩ := c
  by_cases hs : s.header = .scenario <;> cases blocks <;>
    simp [fate, node?, Section.held, hs, Held.fate, outlineFate_unfiltered,
      TagFilter.accepts_unfiltered, Section.node]

/-- CORRECT (grouping): without a filter, a file has a tree exactly when its headers keep the shape,
    and then it is the tree that the cuts in its visible lines give. -/
theorem parse_unfiltered_eq_groupedTree (path : Option Text) (text : Text) (n : Node) :
    (parse .unfiltered path text).result = .ok n ↔
      WellPlaced ((visibleHeadings text).map (·.header)) ∧ groupedTree path text = some n := by
  have hgroup : ∀ {n}, (parse .unfiltered path text).result = .ok n →
      groupedTree path text = some n := fun h => by
    obtain ⟨s, ss, hss, rfl, -⟩ := parse_eq_fates h
    have htags : (s.feature path).tags = (s.feature none).tags := rfl
    rw [groupedTree, hss, Node.ofSections, fates, List.filterMap_map, htags]
    congr 3
    exact List.filterMap_congr fun c _ => (c.fate_unfiltered _).symm
  constructor
  · intro h
    exact ⟨result_ok_iff.1 ⟨n, h⟩, hgroup h⟩
  · rintro ⟨hw, hn⟩
    obtain ⟨n', hn'⟩ := result_ok_iff.2 hw
    obtain rfl : n' = n := Option.some.inj ((hgroup hn').symm.trans hn)
    exact hn'

end GherkinIndex
