import Mathlib.Data.List.Basic
import GherkinIndex.Disk.Basic
import GherkinIndex.Proofs.Text.Digits

/-! Names put behind paths.

    An item's name holds no slash and is not a dot or two, so behind a path it is one component more
    and what stood there before stays as it is. A path is shown as it was written, and names put
    behind one path make different paths unless they are the same names.

        specs    +  a.feature   =  specs/a.feature       specs, a.feature
        specs/   +  a.feature   =  specs/a.feature       specs, a.feature
        .        +  a.feature   =  ./a.feature           here, a.feature                    -/

namespace GherkinIndex

/-- What may be the name of an item. -/
structure Name.Proper (n : Name) : Prop where
  notEmpty : n ≠ []
  notHere : n ≠ ['.']
  notUp : n ≠ ['.', '.']
  noSlash : '/' ∉ n
  noNul : '\x00' ∉ n

instance (n : Name) : Decidable n.Proper :=
  decidable_of_iff (n ≠ [] ∧ n ≠ ['.'] ∧ n ≠ ['.', '.'] ∧ '/' ∉ n ∧ '\x00' ∉ n)
    ⟨fun ⟨h₁, h₂, h₃, h₄, h₅⟩ => ⟨h₁, h₂, h₃, h₄, h₅⟩,
      fun ⟨h₁, h₂, h₃, h₄, h₅⟩ => ⟨h₁, h₂, h₃, h₄, h₅⟩⟩

namespace Path

/-- A name with something before its last dot and `feature` after it, in any case. -/
def IsFeatureName (n : Name) : Prop :=
  ∃ stem ext, stem ≠ [] ∧ n = stem ++ '.' :: ext ∧ Text.lower ext = "feature".toList

/-- A path with names put behind it, one below the other. -/
def joinAll (base : Text) (ns : List Name) : Text := ns.foldl join base

/-! ### Cutting -/

section
variable {path : Text} {n : Name} (hpath : path ≠ []) (hn : n.Proper)
include hn

theorem isAbsolute_name : isAbsolute n = false := by
  cases n with
  | nil => exact absurd rfl hn.notEmpty
  | cons c n =>
    have hc : c ≠ '/' := fun h => hn.noSlash (h ▸ List.mem_cons_self)
    simp [isAbsolute, hc]

theorem component?_name : component? n = some (.name n) := by
  simp [component?, hn.notEmpty, hn.notHere, hn.notUp]

include hpath

theorem join_eq : ∃ stem, join path n = stem ++ '/' :: n ∧
    (path = stem ∨ path = stem ++ ['/']) := by
  have hjoin : join path n = if path.getLast? = some '/' then path ++ n else path ++ '/' :: n := by
    simp [join, isAbsolute_name hn, hpath]
  rw [hjoin]
  by_cases hlast : path.getLast? = some '/'
  · obtain ⟨stem, rfl⟩ := List.getLast?_eq_some_iff.1 hlast
    exact ⟨stem, by simp, .inr rfl⟩
  · exact ⟨path, if_neg hlast, .inl rfl⟩

/-- A name adds a piece, in the place of the empty one behind a slash at the end. -/
theorem splitOn_join : ∃ first pieces, (join path n).splitOn '/' = first :: (pieces ++ [n]) ∧
    (path.splitOn '/' = first :: pieces ∨ path.splitOn '/' = first :: (pieces ++ [[]])) := by
  obtain ⟨stem, hjoin, hstem⟩ := join_eq hpath hn
  obtain ⟨first, pieces, hpieces⟩ : ∃ first pieces, stem.splitOn '/' = first :: pieces :=
    List.exists_cons_of_ne_nil (List.splitOn_ne_nil '/' stem)
  refine ⟨first, pieces, ?_, ?_⟩
  · rw [hjoin, List.splitOn_append_cons_self, hpieces, List.splitOn_eq_singleton hn.noSlash,
      List.cons_append]
  · rcases hstem with rfl | rfl
    · exact .inl hpieces
    · refine .inr ?_
      rw [List.splitOn_append_cons_self, hpieces, List.splitOn_nil, List.cons_append]

theorem isAbsolute_join : isAbsolute (join path n) = isAbsolute path := by
  obtain ⟨c, t, rfl⟩ := List.exists_cons_of_ne_nil hpath
  simp only [join, isAbsolute_name hn, List.isEmpty_cons, Bool.or_self, Bool.false_eq_true, if_false]
  split <;> rfl

theorem join_ne_nil : join path n ≠ [] := by
  obtain ⟨stem, hjoin, -⟩ := join_eq hpath hn
  simp [hjoin]

theorem components_join : components (join path n) = components path ++ [.name n] := by
  obtain ⟨first, pieces, hjoin, hsplit⟩ := splitOn_join hpath hn
  have hend : component? [] = none := rfl
  unfold components
  rw [hjoin, isAbsolute_join hpath hn]
  rcases hsplit with hsplit | hsplit <;>
    simp [hsplit, List.filterMap_append, component?_name hn, hend]

theorem fileName_join : fileName (join path n) = some n := by
  simp [fileName, components_join hpath hn]

end

theorem components_joinAll {base : Text} (hbase : base ≠ []) {ns : List Name}
    (hns : ∀ n ∈ ns, Name.Proper n) :
    components (joinAll base ns) = components base ++ ns.map .name := by
  induction ns generalizing base with
  | nil => simp [joinAll]
  | cons n ns ih =>
    obtain ⟨hn, hns⟩ := List.forall_mem_cons.1 hns
    have hrest := ih (join_ne_nil hbase hn) hns
    rw [components_join hbase hn] at hrest
    simpa [joinAll] using hrest

/-- Behind one base, paths with the same components are the same text. -/
theorem joinAll_eq_of_same {base : Text} (hbase : base ≠ []) {ms ns : List Name}
    (hms : ∀ n ∈ ms, Name.Proper n) (hns : ∀ n ∈ ns, Name.Proper n)
    (h : same (joinAll base ms) (joinAll base ns) = true) : joinAll base ms = joinAll base ns := by
  rw [same, beq_iff_eq, components_joinAll hbase hms, components_joinAll hbase hns,
    List.append_cancel_left_eq] at h
  rw [List.map_injective_iff.2 (fun _ _ => Component.name.inj) h]

/-! ### Extensions -/

/-- The text behind the last dot, if there is a dot with something before it. -/
theorem exists_stem_iff {n ext : Text} : (∃ stem, stem ≠ [] ∧ n = stem ++ '.' :: ext ∧ '.' ∉ ext) ↔
    (n.reverse.takeWhile (· != '.')).length + 1 < n.length ∧
      (n.reverse.takeWhile (· != '.')).reverse = ext := by
  constructor
  · rintro ⟨stem, hstem, rfl, hdot⟩
    have htake : (stem ++ '.' :: ext).reverse.takeWhile (· != '.') = ext.reverse := by
      have hrun : ∀ c ∈ ext.reverse, (c != '.') = true := by
        intro c hc
        have hne : c ≠ '.' := fun h => hdot (h ▸ List.mem_reverse.1 hc)
        simpa using hne
      rw [List.reverse_append, List.reverse_cons, List.append_assoc]
      exact Text.takeWhile_run hrun (by simp)
    have hlength : 0 < stem.length := List.length_pos_iff.2 hstem
    refine ⟨?_, ?_⟩
    · rw [htake, List.length_append, List.length_cons, List.length_reverse]
      omega
    · rw [htake, List.reverse_reverse]
  · rintro ⟨hlength, rfl⟩
    have hsplit : n.reverse.takeWhile (· != '.') ++ n.reverse.dropWhile (· != '.') = n.reverse :=
      List.takeWhile_append_dropWhile
    have hcount := congrArg List.length hsplit
    rw [List.length_append, List.length_reverse] at hcount
    cases hdrop : n.reverse.dropWhile (· != '.') with
    | nil =>
      rw [hdrop, List.length_nil] at hcount
      omega
    | cons c stem =>
      obtain rfl : c = '.' := by simpa [hdrop] using List.head?_dropWhile_not (· != '.') n.reverse
      rw [hdrop] at hsplit hcount
      refine ⟨stem.reverse, ?_, ?_, ?_⟩
      · intro hstem
        rw [List.reverse_eq_nil_iff.1 hstem, List.length_singleton] at hcount
        omega
      · simpa using (congrArg List.reverse hsplit).symm
      · intro hmem
        have hall := List.all_eq_true.1 (List.all_takeWhile) '.' (List.mem_reverse.1 hmem)
        simp at hall

theorem extension_eq_some_iff {p ext : Text} {n : Name} (hname : fileName p = some n) :
    extension p = some ext ↔ ∃ stem, stem ≠ [] ∧ n = stem ++ '.' :: ext ∧ '.' ∉ ext := by
  rw [exists_stem_iff]
  simp [extension, hname]

theorem isFeature_iff {p : Text} {n : Name} (hname : fileName p = some n) :
    isFeature p = true ↔ IsFeatureName n := by
  have hdot : ∀ ext, Text.lower ext = "feature".toList → '.' ∉ ext := by
    intro ext hext hmem
    have hlower : Char.toLower '.' ∈ Text.lower ext := List.mem_map_of_mem hmem
    rw [hext] at hlower
    exact absurd hlower (by decide)
  simp only [isFeature, extensionLower, beq_iff_eq, Option.map_eq_some_iff,
    extension_eq_some_iff hname, IsFeatureName]
  constructor
  · rintro ⟨ext, ⟨stem, hstem, hn, -⟩, hlower⟩
    exact ⟨stem, ext, hstem, hn, hlower⟩
  · rintro ⟨stem, ext, hstem, hn, hlower⟩
    exact ⟨ext, ⟨stem, hstem, hn, hdot ext hlower⟩, hlower⟩

end Path
end GherkinIndex
