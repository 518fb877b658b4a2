import Mathlib.Data.Prod.Lex
import GherkinIndex.Path.Basic
import GherkinIndex.Proofs.Text.Order

/-! The order of paths.

    Paths are compared component by component, so their order is the lexicographic one of their
    components. Of two paths with the same components neither comes first. Putting paths in order
    leaves one of each such group, and the rest strictly increases.

        b  a/c  a//c  a        in order:  a  a/c  b                                -/

namespace GherkinIndex.Path

/-! ### Keys -/

/-- The name of a component that has one. -/
def Component.text : Component → Text
  | .name n => n
  | _ => []

/-- What a component is compared by: its class, and in the last class its name. -/
def Component.key (c : Component) : ℕ ×ₗ Text := toLex (c.rank, c.text)

/-- What a path is compared by. -/
def key (p : Text) : List (ℕ ×ₗ Text) := (components p).map Component.key

theorem Component.key_injective : Function.Injective Component.key := by
  intro a b h
  have hpair := toLex_inj.1 h
  cases a <;> cases b <;> simp_all [rank, text]

theorem Component.precedes_iff {a b : Component} : a.precedes b = true ↔ a.key < b.key := by
  rw [key, key, Prod.Lex.toLex_lt_toLex]
  -- unless both are names the classes decide
  cases a with
  | name s => cases b with
    | name t =>
      rw [precedes, Text.precedes_iff_lt]
      simp [rank, text]
    | _ => simp [precedes, rank, text]
  | _ => cases b <;> simp [precedes, rank, text]

theorem precedesList_iff {s t : List Component} :
    precedesList s t = true ↔ s.map Component.key < t.map Component.key := by
  induction s generalizing t with
  | nil => cases t <;> simp [precedesList]
  | cons a s ih =>
    cases t with
    | nil => simp [precedesList]
    | cons b t =>
      rw [precedesList, List.map_cons, List.map_cons, List.cons_lt_cons_iff, Bool.or_eq_true,
        Component.precedes_iff, Bool.and_eq_true, beq_iff_eq, ih, Component.key_injective.eq_iff]

theorem precedes_iff_lt {p q : Text} : precedes p q = true ↔ key p < key q := precedesList_iff

theorem same_iff {p q : Text} : same p q = true ↔ key p = key q := by
  rw [same, beq_iff_eq, key, key, (Component.key_injective.list_map).eq_iff]

/-! ### Putting paths in order -/

/-- What is left of sorted paths increases strictly, and each path is left with its own or another
    spelling. -/
structure Thinned (ps qs : List Text) : Prop where
  increasing : qs.Pairwise (precedes · · = true)
  subset : qs ⊆ ps
  covers : ∀ p ∈ ps, ∃ q ∈ qs, same q p = true

theorem same_self (p : Text) : same p p = true := same_iff.2 rfl

theorem thinned_singleton (p : Text) : Thinned [p] [p] :=
  ⟨List.pairwise_singleton _ _, List.Subset.refl _, by simpa using same_self p⟩

/-- Another spelling of the first path takes its place. -/
theorem Thinned.respell {p q : Text} {ps qs : List Text} (h : Thinned ps (q :: qs))
    (hkey : key p = key q) : Thinned (p :: ps) (p :: qs) := by
  obtain ⟨hq, hqs⟩ := List.pairwise_cons.1 h.increasing
  refine ⟨List.pairwise_cons.2 ⟨fun r hr => ?_, hqs⟩, ?_, ?_⟩
  · have hlt := hq r hr
    rw [precedes_iff_lt] at hlt ⊢
    exact hkey ▸ hlt
  · exact List.cons_subset_cons p fun r hr => h.subset (List.mem_cons_of_mem q hr)
  · intro r hr
    rcases List.mem_cons.1 hr with rfl | hr
    · exact ⟨r, List.mem_cons_self, same_self r⟩
    · obtain ⟨s, hs, hrs⟩ := h.covers r hr
      rcases List.mem_cons.1 hs with rfl | hs
      · exact ⟨p, List.mem_cons_self, same_iff.2 (hkey.trans (same_iff.1 hrs))⟩
      · exact ⟨s, List.mem_cons_of_mem p hs, hrs⟩

/-- A path that comes before the first one goes in front of it. -/
theorem Thinned.cons {p q : Text} {ps qs : List Text} (h : Thinned ps (q :: qs))
    (hlt : key p < key q) : Thinned (p :: ps) (p :: q :: qs) := by
  obtain ⟨hq, -⟩ := List.pairwise_cons.1 h.increasing
  refine ⟨List.pairwise_cons.2 ⟨fun r hr => ?_, h.increasing⟩, List.cons_subset_cons p h.subset, ?_⟩
  · rw [precedes_iff_lt]
    rcases List.mem_cons.1 hr with rfl | hr
    · exact hlt
    · exact hlt.trans (precedes_iff_lt.1 (hq r hr))
  · intro r hr
    rcases List.mem_cons.1 hr with rfl | hr
    · exact ⟨r, List.mem_cons_self, same_self r⟩
    · obtain ⟨s, hs, hrs⟩ := h.covers r hr
      exact ⟨s, List.mem_cons_of_mem p hs, hrs⟩

theorem Thinned.eq_nil {ps : List Text} (h : Thinned ps []) : ps = [] := by
  cases ps with
  | nil => rfl
  | cons p ps =>
    obtain ⟨q, hq, -⟩ := h.covers p List.mem_cons_self
    exact absurd hq List.not_mem_nil

theorem thinned_dedup {ps : List Text} (h : ps.Pairwise fun p q => key p ≤ key q) :
    Thinned ps (ordered.dedup ps) := by
  induction ps with
  | nil => exact ⟨List.Pairwise.nil, List.Subset.refl _, by simp⟩
  | cons p ps ih =>
    obtain ⟨hp, hps⟩ := List.pairwise_cons.1 h
    have hthin := ih hps
    cases hdedup : ordered.dedup ps with
    | nil =>
      rw [hdedup] at hthin
      simp only [ordered.dedup, hdedup]
      rw [hthin.eq_nil]
      exact thinned_singleton p
    | cons q qs =>
      rw [hdedup] at hthin
      simp only [ordered.dedup, hdedup]
      by_cases hsame : same p q = true
      · rw [if_pos hsame]
        exact hthin.respell (same_iff.1 hsame)
      · rw [if_neg hsame]
        have hle : key p ≤ key q := hp q (hthin.subset List.mem_cons_self)
        exact hthin.cons (lt_of_le_of_ne hle fun h => hsame (same_iff.2 h))

/-- Ordered paths increase strictly, and of each path one spelling is among them. -/
theorem thinned_ordered (ps : List Text) : Thinned ps (ordered ps) := by
  have hle : ∀ p q : Text, (!precedes q p) = true ↔ key p ≤ key q := by
    intro p q
    rw [Bool.not_eq_true', ← Bool.not_eq_true, precedes_iff_lt, not_lt]
  have hsorted : (ps.mergeSort fun p q => !precedes q p).Pairwise fun p q => key p ≤ key q := by
    refine (List.pairwise_mergeSort (fun p q r hpq hqr => ?_) (fun p q => ?_) ps).imp
      fun h => (hle _ _).1 h
    · rw [hle] at *
      exact hpq.trans hqr
    · rw [Bool.or_eq_true, hle, hle]
      exact le_total (key p) (key q)
  obtain ⟨hincreasing, hsubset, hcovers⟩ := thinned_dedup hsorted
  exact ⟨hincreasing, fun q hq => List.mem_mergeSort.1 (hsubset hq),
    fun p hp => hcovers p (List.mem_mergeSort.2 hp)⟩

theorem dedup_of_increasing {ps : List Text} (h : ps.Pairwise (precedes · · = true)) :
    ordered.dedup ps = ps := by
  induction ps with
  | nil => rfl
  | cons p ps ih =>
    obtain ⟨hp, hps⟩ := List.pairwise_cons.1 h
    cases ps with
    | nil => rfl
    | cons q qs =>
      have hne : ¬ same p q = true := fun hsame =>
        (precedes_iff_lt.1 (hp q List.mem_cons_self)).ne (same_iff.1 hsame)
      rw [ordered.dedup, ih hps]
      exact if_neg hne

/-- Paths that increase strictly are in order as they stand. -/
theorem ordered_of_increasing {ps : List Text} (h : ps.Pairwise (precedes · · = true)) :
    ordered ps = ps := by
  have hsorted : ps.Pairwise fun p q => (!precedes q p) = true := h.imp fun hlt => by
    rw [Bool.not_eq_true', ← Bool.not_eq_true, precedes_iff_lt, not_lt]
    exact (precedes_iff_lt.1 hlt).le
  rw [ordered, List.mergeSort_of_pairwise hsorted, dedup_of_increasing h]

/-- No path stands twice among strictly increasing ones. -/
theorem nodup_of_increasing {ps : List Text} (h : ps.Pairwise (precedes · · = true)) :
    ps.Nodup := by
  refine h.imp fun hlt heq => ?_
  rw [heq, precedes_iff_lt] at hlt
  exact lt_irrefl _ hlt

end GherkinIndex.Path
