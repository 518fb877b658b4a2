import GherkinIndex.Proofs.Feature.Assembly

/-! Filtering while a file is read is pruning afterwards.

    The machine asks the filter when a construct is complete, in four different places. The tree it
    ends with is the tree of the whole file with some of it cut away: scenarios and blocks that the
    filter does not accept, and outlines without a block left. What stays is numbered anew.

        whole           pruned
        s               s
        s  (refused)
        s               s, number 2 instead of 3 -/

namespace GherkinIndex

namespace Node

/-- What `f` leaves of a child of a feature: a scenario if it is accepted, an outline with the
    accepted blocks if there are any. -/
def keep (f : TagFilter) (c : Node) : Option Node :=
  match c.kind with
  | .scenario => if f.accepts c.tags then some c else none
  | .outline =>
    let blocks := c.children.filter (f.accepts ·.tags)
    if blocks = [] then none else some (c.withChildren blocks)
  | _ => some c

theorem keep_of_scenario (f : TagFilter) {c : Node} (hc : c.kind = .scenario) :
    keep f c = if f.accepts c.tags then some c else none := by
  rw [keep, hc]

theorem keep_of_outline (f : TagFilter) {c : Node} (hc : c.kind = .outline) :
    keep f c = if c.children.filter (f.accepts ·.tags) = [] then none
      else some (c.withChildren (c.children.filter (f.accepts ·.tags))) := by
  rw [keep, hc]

/-- What is kept of a child is the child with some of its children. -/
theorem exists_of_keep {f : TagFilter} {c m : Node} (h : c.keep f = some m) :
    ∃ cs, cs.Sublist c.children ∧ m = c.withChildren cs := by
  cases hkind : c.kind with
  | scenario =>
    rw [keep_of_scenario f hkind, Option.ite_none_right_eq_some, Option.some.injEq] at h
    exact ⟨c.children, .refl _, by rw [withChildren_children, h.2]⟩
  | outline =>
    rw [keep_of_outline f hkind, Option.ite_none_left_eq_some, Option.some.injEq] at h
    exact ⟨_, List.filter_sublist, h.2.symm⟩
  | _ =>
    simp only [keep, hkind, Option.some.injEq] at h
    exact ⟨c.children, .refl _, by rw [withChildren_children, h]⟩

/-- A feature with what `f` leaves of its children, numbered anew. -/
def prune (f : TagFilter) (feature : Node) : Node :=
  feature.withChildren (renumber (feature.children.filterMap (keep f)))

/-- What is kept of a child does not depend on its number. -/
theorem keep_unnumber (f : TagFilter) (c : Node) :
    keep f (unnumber c) = (keep f c).map unnumber := by
  obtain ⟨kind, text, tags, path, number, numbered, children⟩ := c
  cases kind with
  | feature => rfl
  | examples => rfl
  | row => rfl
  | scenario => by_cases ha : f.accepts tags = true <;> simp [keep, unnumber, ha]
  | outline =>
    by_cases hb : children.filter (f.accepts ·.tags) = [] <;>
      simp [keep, unnumber, withChildren, hb]

theorem renumber_filterMap_keep (f : TagFilter) (cs : List Node) :
    renumber ((renumber cs).filterMap (keep f)) = renumber (cs.filterMap (keep f)) := by
  have hkeep (ds : List Node) :
      (ds.filterMap (keep f)).map unnumber = (ds.map unnumber).filterMap (keep f) := by
    rw [List.map_filterMap, List.filterMap_map]
    exact List.filterMap_congr fun c _ => (keep_unnumber f c).symm
  apply renumber_congr
  rw [hkeep, hkeep, map_unnumber_renumber]

end Node

/-- The blocks of an outline are accepted one by one or all at once. -/
theorem outlineFate_node (f : TagFilter) {o : Node} (hk : o.kind = .outline)
    (hc : o.children = []) (blocks : List Node) :
    (outlineFate f o blocks).node = (o.withChildren blocks).keep f := by
  have hkind : (o.withChildren blocks).kind = .outline := hk
  rw [Node.keep_of_outline f hkind, outlineFate, hc, List.nil_append, Node.children_withChildren,
    Node.withChildren_withChildren]
  split <;> rfl

/-- What a construct leaves is what is kept of its group. -/
theorem Construct.fate_node (f : TagFilter) (feature : TagSet) (c : Construct) :
    (c.fate f feature).node = (c.node? feature).bind (Node.keep f) := by
  obtain ⟨s, blocks⟩ := c
  by_cases hs : s.header = .scenario
  · have hheld : s.held feature = .scenario (s.node .scenario true feature) := if_pos hs
    rw [fate, hheld]
    cases blocks with
    | nil =>
      rw [node?, if_pos rfl, if_pos hs, Option.bind_some, Node.keep_of_scenario f rfl, Held.fate]
      split <;> rfl
    | cons b bs => exact outlineFate_node f rfl rfl _
  · have hheld : s.held feature = .outline (s.node .outline true feature) none := if_neg hs
    rw [fate, hheld]
    cases blocks with
    | nil =>
      rw [node?, if_pos rfl, if_neg hs]
      rfl
    | cons b bs => exact outlineFate_node f rfl rfl _

/-- CORRECT (pruning): reading a file through a filter gives the pruned tree of the whole file, or
    the error that reading it without a filter gives. -/
theorem parse_filtered_eq_prune (f : TagFilter) (path : Option Text) (text : Text) :
    (parse f path text).result = (parse .unfiltered path text).result.map (Node.prune f) := by
  cases hwhole : (parse .unfiltered path text).result with
  | error e => exact result_error_iff.2 (result_error_iff.1 hwhole)
  | ok n =>
    obtain ⟨m, hm⟩ := result_ok_iff (f := f).2 (result_ok_iff.1 ⟨n, hwhole⟩)
    obtain ⟨s, ss, hss, rfl, -⟩ := parse_eq_fates hwhole
    obtain ⟨s', ss', hss', rfl, -⟩ := parse_eq_fates hm
    obtain ⟨rfl, rfl⟩ := List.cons.inj (hss.symm.trans hss')
    rw [hm, Except.map, Node.prune, Node.withChildren_withChildren, Node.children_withChildren,
      Node.renumber_filterMap_keep, fates, fates, List.filterMap_map, List.filterMap_map,
      List.filterMap_filterMap]
    congr 3
    refine List.filterMap_congr fun c _ => ?_
    rw [Function.comp_apply, Function.comp_apply, Construct.fate_unfiltered, Construct.fate_node]

end GherkinIndex
