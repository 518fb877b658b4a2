import Mathlib.Data.List.Induction
import GherkinIndex.Node

/-! Numbers of siblings.

    A numbered child is told apart from earlier siblings with its text by the count of its
    occurrence. Seen from a complete list of children this is a function of positions alone; the
    children that are attached one by one get the same numbers.

        texts     a    b    a    a    b
        numbers   -    -    2    3    2 -/

namespace GherkinIndex

/-- The number of a child whose text `earlier` siblings have. -/
def ordinal (earlier : Nat) : Option Nat := if earlier = 0 then none else some (earlier + 1)

namespace Node

/-- The node with other children. -/
def withChildren (n : Node) (cs : List Node) : Node := { n with children := cs }

-- a node is a recursive structure, so Lean has no eta rule for it
@[simp] theorem withChildren_children (n : Node) : n.withChildren n.children = n := by
  cases n
  rfl

section
variable (n : Node) (cs ds : List Node)

@[simp] theorem withChildren_withChildren :
    (n.withChildren cs).withChildren ds = n.withChildren ds := rfl

@[simp] theorem children_withChildren : (n.withChildren cs).children = cs := rfl
@[simp] theorem tags_withChildren : (n.withChildren cs).tags = n.tags := rfl
@[simp] theorem text_withChildren : (n.withChildren cs).text = n.text := rfl

end

/-- The children with the numbers of their occurrences, whatever numbers they had. -/
def renumber (cs : List Node) : List Node :=
  cs.mapIdx fun i c => { c with number := ordinal ((cs.take i).countP (·.text == c.text)) }

/-- A child that takes its number from its siblings and has none yet. -/
structure Fresh (c : Node) : Prop where
  numbered : c.numbered = true
  number : c.number = none

@[simp] theorem renumber_nil : renumber [] = [] := rfl

@[simp] theorem length_renumber (cs : List Node) : (renumber cs).length = cs.length := by
  simp [renumber]

theorem renumber_concat (cs : List Node) (c : Node) :
    renumber (cs ++ [c]) =
      renumber cs ++ [{ c with number := ordinal (cs.countP (·.text == c.text)) }] := by
  rw [renumber, List.mapIdx_concat, List.take_left]
  congr 1
  apply List.ext_getElem
  · simp
  intro i h₁ h₂
  have hi : i < cs.length := by simpa using h₁
  simp [renumber, List.take_append_of_le_length (Nat.le_of_lt hi)]

theorem map_text_renumber (cs : List Node) : (renumber cs).map (·.text) = cs.map (·.text) :=
  List.ext_getElem (by simp) (by simp [renumber])

/-- Numbers do not change what is counted. -/
theorem countP_renumber (cs : List Node) (t : Text) :
    (renumber cs).countP (·.text == t) = cs.countP (·.text == t) := by
  have hcount (ds : List Node) :
      ds.countP (·.text == t) = (ds.map (·.text)).countP (· == t) := by
    rw [List.countP_map]
    rfl
  rw [hcount, hcount, map_text_renumber]

/-- A child is numbered by what stands before it, so later ones change nothing. -/
theorem renumber_append (cs ds : List Node) :
    ∃ rest, renumber (cs ++ ds) = renumber cs ++ rest ∧ rest.map (·.text) = ds.map (·.text) := by
  have hprefix : renumber cs <+: renumber (cs ++ ds) := by
    induction ds using List.reverseRecOn with
    | nil => simp
    | append_singleton ds d ih =>
      rw [← List.append_assoc, renumber_concat]
      exact ih.trans (List.prefix_append _ _)
  obtain ⟨rest, hrest⟩ := hprefix
  refine ⟨rest, hrest.symm, ?_⟩
  have htexts := congrArg (List.map (·.text)) hrest
  rwa [List.map_append, map_text_renumber, map_text_renumber, List.map_append,
    List.append_cancel_left_eq] at htexts

theorem renumber_mono {cs ds : List Node} (h : cs <+: ds) : renumber cs <+: renumber ds := by
  obtain ⟨es, rfl⟩ := h
  obtain ⟨rest, hrest, -⟩ := renumber_append cs es
  exact ⟨rest, hrest.symm⟩

theorem dropLast_renumber (cs : List Node) : (renumber cs).dropLast = renumber cs.dropLast := by
  rcases List.eq_nil_or_concat cs with rfl | ⟨ds, d, rfl⟩
  · rfl
  · rw [List.concat_eq_append, renumber_concat, List.dropLast_concat, List.dropLast_concat]

/-- The node without its number. -/
def unnumber (n : Node) : Node := { n with number := none }

theorem map_unnumber_renumber (cs : List Node) :
    (renumber cs).map unnumber = cs.map unnumber :=
  List.ext_getElem (by simp) (by simp [renumber, unnumber])

theorem renumber_map_unnumber (cs : List Node) : renumber (cs.map unnumber) = renumber cs := by
  apply List.ext_getElem
  · simp
  · intro i h₁ h₂
    simp [renumber, unnumber, ← List.map_take, List.countP_map, Function.comp_def]

/-- Numbers that are given anew do not depend on the numbers before. -/
theorem renumber_congr {cs ds : List Node} (h : cs.map unnumber = ds.map unnumber) :
    renumber cs = renumber ds := by
  rw [← renumber_map_unnumber cs, h, renumber_map_unnumber]

/-- What does not look at numbers finds the same after numbering. -/
theorem filterMap_renumber {α : Type} {p : Node → Option α}
    (hp : ∀ c, p c.unnumber = p c) (cs : List Node) :
    (renumber cs).filterMap p = cs.filterMap p := by
  have hcut (ds : List Node) : ds.filterMap p = (ds.map unnumber).filterMap p := by
    rw [List.filterMap_map, show p ∘ unnumber = p from funext hp]
  rw [hcut, map_unnumber_renumber, ← hcut]

theorem map_renumber {α : Type} {p : Node → α} (hp : ∀ c, p c.unnumber = p c) (cs : List Node) :
    (renumber cs).map p = cs.map p := by
  have hcut (ds : List Node) : ds.map p = (ds.map unnumber).map p := by simp [hp]
  rw [hcut, map_unnumber_renumber, ← hcut]

theorem flatMap_children_renumber (cs : List Node) :
    (renumber cs).flatMap (·.children) = cs.flatMap (·.children) := by
  rw [List.flatMap_def, map_renumber fun _ => rfl, ← List.flatMap_def]

/-- Numbering changes nothing but numbers. -/
theorem mem_renumber {cs : List Node} {n : Node} (hn : n ∈ renumber cs) :
    ∃ c ∈ cs, ∃ k, n = { c with number := k } := by
  obtain ⟨i, hi, rfl⟩ := List.mem_mapIdx.1 hn
  exact ⟨cs[i], List.getElem_mem hi, _, rfl⟩

/-- A child is numbered as the last one of the children that are there with it. -/
theorem addChild_of_fresh {n c : Node} {cs : List Node} (hn : n.children = renumber cs)
    (hc : c.Fresh) : n.addChild c = n.withChildren (renumber (cs ++ [c])) := by
  have hnumber : n.numberedIn c =
      { c with number := ordinal (cs.countP (·.text == c.text)) } := by
    rw [numberedIn, occurrences, hn, countP_renumber, ordinal]
    generalize cs.countP (·.text == c.text) = earlier
    obtain ⟨_, _, _, _, number, numbered, _⟩ := c
    obtain rfl : number = none := hc.number
    obtain rfl : numbered = true := hc.numbered
    by_cases h : earlier = 0
    · simp [h]
    · simp [h, Nat.pos_of_ne_zero h]
  rw [addChild, renumber_concat, hn, ← hnumber, withChildren]

/-- A child without a number of its own is attached as it is. -/
theorem addChild_of_unnumbered (n : Node) {c : Node} (hc : c.numbered = false) :
    n.addChild c = n.withChildren (n.children ++ [c]) := by
  simp [addChild, numberedIn, hc, withChildren]

end Node
end GherkinIndex
