import Mathlib.Data.List.Forall2
import Mathlib.Data.List.Pairwise
import GherkinIndex.Proofs.Feature.Numbering
import GherkinIndex.Proofs.Text.Order
import GherkinIndex.Report.Basic

/-! Reports listed by name.

    Features are put in the order of their texts, and so are the scenarios and outlines of each;
    nothing below them moves. Nodes with one text stay in the order in which they were. Numbers count
    the earlier siblings with one text, which are the same ones before and after, so they still read
    2, 3 and so on behind the first.

        feature g                feature f
        ├─ t                     └─ u
        ├─ s                     feature g
        └─ t 2                   ├─ s
        feature f                ├─ t
        └─ u                     └─ t 2                                      -/

namespace GherkinIndex

namespace Node

/-! ### Order -/

/-- The comparison by which nodes are listed. -/
def notAfter (a b : Node) : Bool := Text.notAfter a.text b.text

/-- `after` are the nodes `before` in the order of their texts, those with one text as they were. -/
structure InOrder (before after : List Node) : Prop where
  perm : after.Perm before
  increasing : after.Pairwise fun a b => a.text ≤ b.text
  stable : ∀ t, after.filter (·.text == t) = before.filter (·.text == t)

theorem notAfter_iff {a b : Node} : a.notAfter b = true ↔ a.text ≤ b.text := Text.notAfter_iff_le

theorem notAfter_trans (a b c : Node) (hab : a.notAfter b = true) (hbc : b.notAfter c = true) :
    a.notAfter c = true := by
  rw [notAfter_iff] at *
  exact hab.trans hbc

theorem notAfter_total (a b : Node) : (a.notAfter b || b.notAfter a) = true := by
  rw [Bool.or_eq_true, notAfter_iff, notAfter_iff]
  exact le_total a.text b.text

theorem inOrder_mergeSort (ns : List Node) : InOrder ns (ns.mergeSort notAfter) where
  perm := List.mergeSort_perm ns notAfter
  increasing := by
    have hsorted := List.pairwise_mergeSort notAfter_trans notAfter_total ns
    exact hsorted.imp notAfter_iff.1
  stable := by
    intro t
    -- nodes with one text are in order as they stand, so sorting keeps them as a sublist
    have hsorted : (ns.filter (·.text == t)).Pairwise fun a b => a.notAfter b = true := by
      refine List.pairwise_of_forall_mem_list fun a ha b hb => ?_
      rw [List.mem_filter, beq_iff_eq] at ha hb
      rw [notAfter_iff, ha.2, hb.2]
    have hsub := List.sublist_mergeSort notAfter_trans notAfter_total hsorted List.filter_sublist
    have hkept := hsub.filter (·.text == t)
    simp only [List.filter_filter, Bool.and_self] at hkept
    have hlength := ((List.mergeSort_perm ns notAfter).filter (·.text == t)).length_eq
    exact (hkept.eq_of_length hlength.symm).symm

/-- Nodes that are in order stay where they are. -/
theorem mergeSort_of_increasing {ns : List Node} (h : ns.Pairwise fun a b => a.text ≤ b.text) :
    ns.mergeSort notAfter = ns :=
  List.mergeSort_of_pairwise (h.imp notAfter_iff.2)

/-! ### Numbers -/

/-- Each node has the number of its occurrence: none if no earlier one has its text, else one more
    than the count of those. -/
def Counted (cs : List Node) : Prop :=
  ∀ i (h : i < cs.length), cs[i].number = ordinal ((cs.take i).countP (·.text == cs[i].text))

instance (cs : List Node) : Decidable (Counted cs) :=
  inferInstanceAs (Decidable (∀ i (_ : i < cs.length), _ = _))

theorem counted_concat {cs : List Node} {c : Node} :
    Counted (cs ++ [c]) ↔
      Counted cs ∧ c.number = ordinal (cs.countP (·.text == c.text)) := by
  constructor
  · intro h
    refine ⟨fun i hi => ?_, ?_⟩
    · have hnumber := h i (by rw [List.length_append]; omega)
      rwa [List.getElem_append_left hi, List.take_append_of_le_length (Nat.le_of_lt hi)]
        at hnumber
    · simpa using h cs.length (by simp)
  · rintro ⟨hcs, hc⟩ i hi
    rcases Nat.lt_or_ge i cs.length with hlt | hge
    · rw [List.getElem_append_left hlt, List.take_append_of_le_length (Nat.le_of_lt hlt)]
      exact hcs i hlt
    · obtain rfl : i = cs.length := by
        rw [List.length_append, List.length_singleton] at hi
        omega
      simpa using hc

/-- The nodes with text `t` are numbered in turn. -/
def InTurn (t : Text) (cs : List Node) : Prop :=
  (cs.filter (·.text == t)).map (·.number) =
    (List.range (cs.filter (·.text == t)).length).map ordinal

theorem inTurn_concat_self {cs : List Node} {c : Node} :
    InTurn c.text (cs ++ [c]) ↔
      InTurn c.text cs ∧ c.number = ordinal (cs.countP (·.text == c.text)) := by
  have hfilter : (cs ++ [c]).filter (·.text == c.text) = cs.filter (·.text == c.text) ++ [c] := by
    simp
  rw [InTurn, hfilter, List.map_append, List.length_append, List.length_singleton,
    List.range_succ, List.map_append, List.map_singleton, List.map_singleton,
    List.append_singleton_inj, List.countP_eq_length_filter, ← InTurn]

theorem inTurn_concat_of_ne {t : Text} {cs : List Node} {c : Node} (h : c.text ≠ t) :
    InTurn t (cs ++ [c]) ↔ InTurn t cs := by
  have hfilter : (cs ++ [c]).filter (·.text == t) = cs.filter (·.text == t) := by simp [h]
  rw [InTurn, hfilter, ← InTurn]

/-- Numbers can be checked text by text. -/
theorem counted_iff_inTurn {cs : List Node} : Counted cs ↔ ∀ t, InTurn t cs := by
  induction cs using List.reverseRecOn with
  | nil => simp [Counted, InTurn]
  | append_singleton cs c ih =>
    rw [counted_concat, ih]
    constructor
    · rintro ⟨hcs, hc⟩ t
      by_cases ht : c.text = t
      · subst ht
        exact inTurn_concat_self.2 ⟨hcs c.text, hc⟩
      · exact (inTurn_concat_of_ne ht).2 (hcs t)
    · intro h
      refine ⟨fun t => ?_, (inTurn_concat_self.1 (h c.text)).2⟩
      by_cases ht : c.text = t
      · subst ht
        exact (inTurn_concat_self.1 (h c.text)).1
      · exact (inTurn_concat_of_ne ht).1 (h t)

/-- Nodes with one text keep their order, and their numbers depend on nothing else. -/
theorem InOrder.counted {before after : List Node} (h : InOrder before after)
    (hbefore : Counted before) : Counted after := by
  rw [counted_iff_inTurn] at *
  intro t
  rw [InTurn, h.stable t]
  exact hbefore t

/-! ### Features -/

/-- The feature `m` is `n` with its children in order. -/
def ChildrenInOrder (n m : Node) : Prop := ∃ cs, m = n.withChildren cs ∧ InOrder n.children cs

theorem childrenInOrder_sortChildren (n : Node) : n.ChildrenInOrder n.sortChildren :=
  ⟨_, rfl, inOrder_mergeSort n.children⟩

theorem sortChildren_sortChildren (n : Node) : n.sortChildren.sortChildren = n.sortChildren :=
  congrArg n.withChildren (mergeSort_of_increasing (inOrder_mergeSort n.children).increasing)

end Node

theorem sortedByName_eq (fs : List Node) :
    sortedByName fs = (fs.map Node.sortChildren).mergeSort Node.notAfter := rfl

theorem mem_sortedByName {fs : List Node} {m : Node} :
    m ∈ sortedByName fs ↔ ∃ n ∈ fs, n.sortChildren = m := by
  rw [sortedByName_eq, List.mem_mergeSort, List.mem_map]

theorem sortedByName_sortedByName (fs : List Node) :
    sortedByName (sortedByName fs) = sortedByName fs := by
  have hchildren : (sortedByName fs).map Node.sortChildren = sortedByName fs := by
    conv_rhs => rw [← List.map_id (sortedByName fs)]
    refine List.map_congr_left fun m hm => ?_
    obtain ⟨n, -, rfl⟩ := mem_sortedByName.1 hm
    exact n.sortChildren_sortChildren
  rw [sortedByName_eq (sortedByName fs), hchildren]
  exact Node.mergeSort_of_increasing (Node.inOrder_mergeSort _).increasing

/-- CORRECT (listing by name): the features are listed in the order of their texts, those with one
    text as they were, and each of them is one of the given features but for the order of its
    children, which are the same nodes listed alike. Listing again changes nothing. If the children
    of each feature have the numbers of their occurrences before, they have them afterwards. -/
theorem sortedByName_in_order (fs : List Node) :
    (∃ ms, List.Forall₂ Node.ChildrenInOrder fs ms ∧ Node.InOrder ms (sortedByName fs)) ∧
      sortedByName (sortedByName fs) = sortedByName fs ∧
      ((∀ n ∈ fs, Node.Counted n.children) →
        ∀ m ∈ sortedByName fs, Node.Counted m.children) := by
  refine ⟨⟨fs.map Node.sortChildren, ?_, Node.inOrder_mergeSort _⟩,
    sortedByName_sortedByName fs, fun h m hm => ?_⟩
  · rw [List.forall₂_map_right_iff, List.forall₂_same]
    exact fun n _ => n.childrenInOrder_sortChildren
  · obtain ⟨n, hn, rfl⟩ := mem_sortedByName.1 hm
    exact (Node.inOrder_mergeSort n.children).counted (h n hn)

/-- A node of the trees below, with its text, number and children. -/
def titled (kind : Kind) (text : String) (number : Option Nat) (children : List Node) : Node :=
  { kind := kind, text := text.toList, tags := .empty, number := number, children := children }

/-- Features out of order, the first with three children of one text, one of them an outline. -/
def unsorted : List Node :=
  [titled .feature "Feature: g" none [
      titled .scenario "Scenario: t" none [],
      titled .scenario "Scenario: s" none [],
      titled .outline "Scenario: t" (some 2) [titled .examples "Examples: e" none []],
      titled .scenario "Scenario: t" (some 3) []],
    titled .feature "Feature: f" none []]

example : (sortedByName unsorted).map (fun n => (n.text, n.children.map (·.number))) =
    [("Feature: f".toList, []), ("Feature: g".toList, [none, none, some 2, some 3])] := by
  cbv

theorem sortedByName_in_order_unsorted :
    (∀ n ∈ unsorted, Node.Counted n.children) ∧
      ∀ m ∈ sortedByName unsorted, Node.Counted m.children := by
  have hbefore : ∀ n ∈ unsorted, Node.Counted n.children := by decide
  exact ⟨hbefore, (sortedByName_in_order unsorted).2.2 hbefore⟩

end GherkinIndex
