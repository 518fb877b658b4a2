import Mathlib.Data.Set.Basic
import Mathlib.Logic.Function.Basic
import GherkinIndex.Proofs.Tag.Filter

/-! Tag sets as an algebra.

    However sets are put together, from single tags, from lists and from each other, a set is what
    its tags make when they are added one by one in the order in which they went in, those that went
    into another set before it included. So the order of a set is that of first occurrences, and the
    laws of unions hold in this order, not only up to it.

        a := from [x, y, x]      x y        all that went in: x y x
        b := a ∪ a               x y                          x y x x y x
        insert z into a          x y z                        x y x z
        extend b by a            x y z                        x y x x y x x y x z -/

namespace GherkinIndex

namespace TagSet

/-- An operation on sets that have names. -/
inductive Op (ι : Type) where
  | insert (name : ι) (tag : Tag)
  | extend (name other : ι)
  | union (name left right : ι)
  | ofList (name : ι) (tags : List Tag)

/-! ### Runs -/

section
variable {ι : Type} [DecidableEq ι]

/-- The sets after an operation. -/
def step (sets : ι → TagSet) : Op ι → ι → TagSet
  | .insert name tag => Function.update sets name ((sets name).insert tag)
  | .extend name other => Function.update sets name ((sets name).extend (sets other).toList)
  | .union name left right => Function.update sets name ((sets left).union (sets right))
  | .ofList name tags => Function.update sets name (.ofList tags)

/-- The sets after some operations, all of them empty before. -/
def run (ops : List (Op ι)) : ι → TagSet := ops.foldl step fun _ => .empty

/-- What has gone into each set after an operation, in order. -/
def record (added : ι → List Tag) : Op ι → ι → List Tag
  | .insert name tag => Function.update added name (added name ++ [tag])
  | .extend name other => Function.update added name (added name ++ added other)
  | .union name left right => Function.update added name (added left ++ added right)
  | .ofList name tags => Function.update added name tags

/-- All that goes into each set in the course of some operations, in order and with repetitions. -/
def added (ops : List (Op ι)) : ι → List Tag := ops.foldl record fun _ => []

end

/-- The set of tags without an order. -/
def members (s : TagSet) : Set Tag := {t | t ∈ s.toList}

/-! ### Sets from lists -/

theorem toList_ofList (ts : List Tag) : (ofList ts).toList = ts.eraseDups := by
  rw [ofList, toList_extend, Tag.inherit]
  simp [empty]

theorem insert_ofList (ts : List Tag) (t : Tag) : (ofList ts).insert t = ofList (ts ++ [t]) :=
  (extend_append .empty ts [t]).symm

theorem ofList_append (xs ys : List Tag) : ofList (xs ++ ys) = (ofList xs).union (ofList ys) := by
  rw [union_ofList]
  exact extend_append .empty xs ys

theorem nodup_ofList (ts : List Tag) : (ofList ts).toList.Nodup := nodup_extend ts List.nodup_nil

/-! ### Unions -/

/-- Tags that are there already change nothing. -/
theorem extend_of_subset {s : TagSet} {ts : List Tag} (h : ts ⊆ s.toList) : s.extend ts = s := by
  induction ts with
  | nil => rfl
  | cons t ts ih =>
    rw [List.cons_subset] at h
    have hstep : s.extend (t :: ts) = (s.insert t).extend ts := rfl
    rw [hstep, insert_of_mem h.1, ih h.2]

theorem union_self (s : TagSet) : s.union s = s := extend_of_subset (List.Subset.refl _)

theorem union_empty (s : TagSet) : s.union .empty = s := rfl

theorem members_union (s o : TagSet) : (s.union o).members = s.members ∪ o.members :=
  Set.ext fun _ => mem_union

/-! ### Queries -/

theorem intersects_iff_nonempty {s o : TagSet} :
    s.intersects o = true ↔ (s.members ∩ o.members).Nonempty := by
  rw [intersects_iff]
  exact exists_congr fun t => and_comm

theorem includes_iff_subset {s o : TagSet} : s.includes o = true ↔ o.members ⊆ s.members :=
  includes_iff

/-! ### What an operation keeps -/

section
variable {ι : Type} [DecidableEq ι]

/-- Sets that are made of what went into them are so after another operation. -/
theorem step_ofList (added : ι → List Tag) (op : Op ι) :
    step (fun name => ofList (added name)) op = fun name => ofList (record added op name) := by
  have hupdate (name : ι) (ts : List Tag) :
      (fun other => ofList (Function.update added name ts other)) =
        Function.update (fun other => ofList (added other)) name (ofList ts) :=
    Function.comp_update ofList added name ts
  cases op with
  | insert name tag => rw [step, record, hupdate, insert_ofList]
  | extend name other => rw [step, record, hupdate, ofList_append, union]
  | union name left right => rw [step, record, hupdate, ofList_append]
  | ofList name tags => rw [step, record, hupdate]

/-- After any operations a set is made of all that went into it. -/
theorem run_eq_ofList (ops : List (Op ι)) (name : ι) : run ops name = ofList (added ops name) := by
  have hrun : ∀ (ops : List (Op ι)) (start : ι → List Tag),
      ops.foldl step (fun name => ofList (start name)) =
        fun name => ofList (ops.foldl record start name) := by
    intro ops
    induction ops with
    | nil => exact fun _ => rfl
    | cons op ops ih =>
      intro start
      rw [List.foldl_cons, List.foldl_cons, step_ofList, ih]
  exact congrFun (hrun ops fun _ => []) name

end

/-- CORRECT (tag sets): after any operations on sets that were empty at first, each set holds what
    went into it, first occurrences only and in their order. A list in two parts makes the union of
    the two sets. Unions are associative and idempotent in this order, and the empty set changes
    nothing on either side. The queries are those of the sets without their order: membership, a
    common tag, inclusion. A union includes both of its operands. -/
theorem ordered_set_algebra {ι : Type} [DecidableEq ι] :
    (∀ (ops : List (Op ι)) name,
      (run ops name).toList = (added ops name).eraseDups ∧ (run ops name).toList.Nodup ∧
        TagSet.empty.union (run ops name) = run ops name) ∧
      (∀ xs ys, ofList (xs ++ ys) = (ofList xs).union (ofList ys)) ∧
      (∀ s o p : TagSet, (s.union o).union p = s.union (o.union p)) ∧
      (∀ s : TagSet, s.union s = s ∧ s.union .empty = s) ∧
      ∀ s o : TagSet,
        (∀ t, s.contains t = true ↔ t ∈ s.members) ∧
        (s.intersects o = true ↔ (s.members ∩ o.members).Nonempty) ∧
        (s.includes o = true ↔ o.members ⊆ s.members) ∧
        (s.union o).includes s = true ∧ (s.union o).includes o = true := by
  refine ⟨fun ops name => ?_, ofList_append, union_assoc,
    fun s => ⟨union_self s, union_empty s⟩, fun s o => ⟨contains_iff s, ?_⟩⟩
  · rw [run_eq_ofList]
    have hnodup := nodup_ofList (added ops name)
    exact ⟨toList_ofList _, hnodup, empty_union hnodup⟩
  · refine ⟨intersects_iff_nonempty, includes_iff_subset, ?_, ?_⟩
    · rw [includes_iff_subset, members_union]
      exact Set.subset_union_left
    · rw [includes_iff_subset, members_union]
      exact Set.subset_union_right

/-- Two sets, the second extended by the first after a tag has been added to it. -/
example :
    let ops : List (Op Bool) := [.ofList true [['x'], ['y'], ['x']], .union false true true,
      .insert true ['z'], .extend false true]
    (run ops false).toList = [['x'], ['y'], ['z']] ∧ (added ops false).length = 10 := by decide

end TagSet
end GherkinIndex
