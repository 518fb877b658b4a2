import Mathlib.Data.Finset.Card
import Mathlib.Data.Finset.Dedup
import Mathlib.Logic.Relation
import GherkinIndex.Disk.Walk
import GherkinIndex.Proofs.Disk.Route

/-! Where a walk goes and what it sees.

    A walk stands at a directory and enters another one by a name: a sub-directory, or what a link
    leads to unless the walk is in that directory already. It cannot go on for ever. A link takes it
    to a place it was not at, of which there are finitely many, and a sub-directory lies further down,
    though the walk may have been there. So the number of new places, and among equals the number of
    places below, goes down with every step.

        a/b → ..     a           new 2, below 1
                     a/b         new 1, below 2      the root
                     a/b/a       new 1, below 1      not new, but further down
                     a/b/a/b                         the root again: a loop, not entered      -/

namespace GherkinIndex.Disk

open Relation

/-- Where a walk stands, the directories it is in, and how the place is shown. -/
structure Stage where
  here : Place
  above : List Place
  path : Text

/-- From one directory to the next by a name. -/
inductive Enters (d : Disk) (s : Stage) : Stage → Prop
  | dir {n : Name} (there : d.item? (s.here ++ [n]) = some .dir) :
      Enters d s ⟨s.here ++ [n], (s.here ++ [n]) :: s.above, Path.join s.path n⟩
  | link {n : Name} {t : Text} {q : Place} (there : d.item? (s.here ++ [n]) = some (.link t))
      (leads : d.place (Path.join s.path n) = .ok q) (dir : d.item? q = some .dir)
      (new : q ∉ s.above) : Enters d s ⟨q, q :: s.above, Path.join s.path n⟩

/-- What is seen in a directory. -/
inductive Sees (d : Disk) (s : Stage) : Sighting → Prop
  | file {n : Name} {bytes : ByteArray} (there : d.item? (s.here ++ [n]) = some (.file bytes)) :
      Sees d s (.file (Path.join s.path n))
  | linked {n : Name} {t : Text} {q : Place} (there : d.item? (s.here ++ [n]) = some (.link t))
      (leads : d.place (Path.join s.path n) = .ok q) (noDir : d.item? q ≠ some .dir) :
      Sees d s (.file (Path.join s.path n))
  | loop {n : Name} {t : Text} {q : Place} (there : d.item? (s.here ++ [n]) = some (.link t))
      (leads : d.place (Path.join s.path n) = .ok q) (dir : d.item? q = some .dir)
      (old : q ∈ s.above) : Sees d s .loop
  | broken {n : Name} {t : Text} {f : Fault} (there : d.item? (s.here ++ [n]) = some (.link t))
      (fails : d.place (Path.join s.path n) = .error f) :
      Sees d s (.broken (Path.join s.path n) f)

/-- The sightings from a stage on, with so much fuel. -/
def walkFrom (d : Disk) (fuel : Nat) (s : Stage) : List Sighting :=
  d.walkWithin fuel s.above s.here s.path

/-! ### Places -/

/-- All places where something is. -/
def places (d : Disk) : Finset Place := insert [] (d.items.map Prod.fst).toFinset

/-- The places below a place. -/
def placesBelow (d : Disk) (p : Place) : Finset Place := {q ∈ d.places | p <+: q ∧ p ≠ q}

section
variable {d : Disk} {p : Place}

theorem mem_places {i : Item} (h : d.item? p = some i) : p ∈ d.places := by
  by_cases hp : p = []
  · simp [hp, places]
  · have hmem : p ∈ d.items.map Prod.fst := List.mem_map_of_mem (mem_items_of_item? h hp)
    simp only [places, Finset.mem_insert, List.mem_toFinset]
    exact .inr hmem

theorem card_places_le (d : Disk) : d.places.card ≤ d.items.length + 1 := by
  have hitems : (d.items.map Prod.fst).toFinset.card ≤ d.items.length := by
    simpa using List.toFinset_card_le (d.items.map Prod.fst)
  exact (Finset.card_insert_le _ _).trans (Nat.succ_le_succ hitems)

theorem card_placesBelow_le (d : Disk) (p : Place) : (d.placesBelow p).card ≤ d.places.card :=
  Finset.card_filter_le ..

/-- Fewer places lie below what lies in a directory. -/
theorem card_placesBelow_lt {n : Name} {i : Item} (h : d.item? (p ++ [n]) = some i) :
    (d.placesBelow (p ++ [n])).card < (d.placesBelow p).card := by
  have hne : p ≠ p ++ [n] := by simp
  refine Finset.card_lt_card (Finset.ssubset_iff_of_subset ?_ |>.2 ⟨p ++ [n], ?_, ?_⟩)
  · intro q hq
    obtain ⟨hplace, hprefix, -⟩ := Finset.mem_filter.1 hq
    refine Finset.mem_filter.2 ⟨hplace, (List.prefix_append p [n]).trans hprefix, ?_⟩
    rintro rfl
    exact absurd hprefix.length_le (by simp)
  · exact Finset.mem_filter.2 ⟨mem_places h, List.prefix_append p [n], hne⟩
  · simp [placesBelow]

theorem nameIn_eq_some_iff {q : Place} {n : Name} : nameIn p q = some n ↔ q = p ++ [n] := by
  constructor
  · intro h
    by_cases hp : q.dropLast = p
    · rw [nameIn, if_pos hp] at h
      rw [← hp, List.dropLast_append_getLast? n h]
    · simp [nameIn, hp] at h
  · rintro rfl
    simp [nameIn]

theorem mem_names_iff {n : Name} : n ∈ d.names p ↔ ∃ i, d.item? (p ++ [n]) = some i := by
  have hitem : d.item? (p ++ [n]) = d.items.lookup (p ++ [n]) := by simp [item?]
  rw [hitem, ← Option.isSome_iff_exists, List.lookup_isSome_iff]
  simp [names, nameIn_eq_some_iff]

end

/-! ### The way down -/

/-- Goes down with every step of a walk. -/
def rank (d : Disk) (s : Stage) : Nat :=
  (d.places \ s.above.toFinset).card * (d.places.card + 1) + (d.placesBelow s.here).card

theorem rank_lt {d : Disk} {s s' : Stage} (h : d.Enters s s') : d.rank s' < d.rank s := by
  have hfew : (d.placesBelow s'.here).card < d.places.card + 1 :=
    Nat.lt_succ_of_le (card_placesBelow_le d s'.here)
  cases h with
  | @dir n there =>
    have hsub : d.places \ ((s.here ++ [n]) :: s.above).toFinset ⊆ d.places \ s.above.toFinset :=
      Finset.sdiff_subset_sdiff (Finset.Subset.refl _) (by simp [Finset.subset_insert])
    exact Nat.add_lt_add_of_le_of_lt (Nat.mul_le_mul_right _ (Finset.card_le_card hsub))
      (card_placesBelow_lt there)
  | @link n t q there leads dir new =>
    have hlt : (d.places \ (q :: s.above).toFinset).card < (d.places \ s.above.toFinset).card := by
      rw [List.toFinset_cons, Finset.sdiff_insert]
      exact Finset.card_erase_lt_of_mem (by simp [mem_places dir, new])
    have hstep := Nat.mul_le_mul_right (d.places.card + 1) (Nat.succ_le_of_lt hlt)
    rw [Nat.succ_mul] at hstep
    simp only [rank] at hfew ⊢
    omega

/-- No walk goes on for ever. -/
theorem wellFounded_enters (d : Disk) : WellFounded fun s' s => d.Enters s s' :=
  Subrelation.wf rank_lt (measure d.rank).wf

theorem rank_lt_walkFuel (d : Disk) (s : Stage) : d.rank s < d.walkFuel := by
  have hplaces := card_places_le d
  have hnew : (d.places \ s.above.toFinset).card ≤ d.places.card :=
    Finset.card_le_card Finset.sdiff_subset
  have hbelow := card_placesBelow_le d s.here
  calc d.rank s
      ≤ d.places.card * (d.places.card + 1) + d.places.card :=
        Nat.add_le_add (Nat.mul_le_mul_right _ hnew) hbelow
    _ < (d.places.card + 1) * (d.places.card + 1) := by rw [Nat.succ_mul]; omega
    _ ≤ d.walkFuel := Nat.mul_le_mul (by omega) (by omega)

/-! ### The run -/

section
variable {d : Disk} {s : Stage} {fuel : Nat} {x : Sighting}

/-- One level of a walk: what is seen here, and the walks from the directories entered. -/
theorem mem_walkFrom_succ : x ∈ d.walkFrom (fuel + 1) s ↔
    d.Sees s x ∨ ∃ s', d.Enters s s' ∧ x ∈ d.walkFrom fuel s' := by
  simp only [walkFrom, walkWithin, List.mem_flatMap, mem_names_iff]
  constructor
  · rintro ⟨n, ⟨i, hi⟩, hx⟩
    simp only [hi] at hx
    cases i with
    | file bytes =>
      obtain rfl : x = _ := by simpa using hx
      exact .inl (.file hi)
    | dir => exact .inr ⟨_, .dir hi, hx⟩
    | link t =>
      cases hplace : d.place (Path.join s.path n) with
      | error f =>
        obtain rfl : x = _ := by simpa [hplace] using hx
        exact .inl (.broken hi hplace)
      | ok q =>
        simp only [hplace] at hx
        by_cases hdir : d.isDirAt q = true
        · rw [if_pos hdir] at hx
          rw [isDirAt_iff] at hdir
          by_cases hold : s.above.contains q = true
          · obtain rfl : x = _ := by simpa only [if_pos hold, List.mem_singleton] using hx
            exact .inl (.loop hi hplace hdir (by simpa using hold))
          · rw [if_neg hold] at hx
            exact .inr ⟨_, .link hi hplace hdir (by simpa using hold), hx⟩
        · obtain rfl : x = _ := by simpa [hdir] using hx
          exact .inl (.linked hi hplace (by simpa [isDirAt_iff] using hdir))
  · rintro (hsees | ⟨s', henters, hx⟩)
    · cases hsees with
      | @file n bytes there => exact ⟨n, ⟨_, there⟩, by simp [there]⟩
      | @linked n t q there leads noDir =>
        exact ⟨n, ⟨_, there⟩, by simp [there, leads, isDirAt_iff, noDir]⟩
      | @loop n t q there leads dir old =>
        exact ⟨n, ⟨_, there⟩, by simp [there, leads, isDirAt_iff.2 dir, old]⟩
      | @broken n t f there fails => exact ⟨n, ⟨_, there⟩, by simp [there, fails]⟩
    · cases henters with
      | @dir n there => exact ⟨n, ⟨_, there⟩, by simpa [there] using hx⟩
      | @link n t q there leads dir new =>
        exact ⟨n, ⟨_, there⟩, by simpa [there, leads, isDirAt_iff.2 dir, new] using hx⟩

/-- A walk with fuel above its rank comes everywhere and sees everything. -/
theorem mem_walkFrom_iff (hfuel : d.rank s < fuel) :
    x ∈ d.walkFrom fuel s ↔ ∃ s', ReflTransGen d.Enters s s' ∧ d.Sees s' x := by
  induction fuel generalizing s with
  | zero => exact absurd hfuel (Nat.not_lt_zero _)
  | succ fuel ih =>
    have hbelow : ∀ s', d.Enters s s' →
        (x ∈ d.walkFrom fuel s' ↔ ∃ s'', ReflTransGen d.Enters s' s'' ∧ d.Sees s'' x) :=
      fun s' h => ih (Nat.lt_of_lt_of_le (rank_lt h) (Nat.le_of_lt_succ hfuel))
    rw [mem_walkFrom_succ]
    constructor
    · rintro (hsees | ⟨s', henters, hx⟩)
      · exact ⟨s, .refl, hsees⟩
      · obtain ⟨s'', hreach, hsees⟩ := (hbelow s' henters).1 hx
        exact ⟨s'', .head henters hreach, hsees⟩
    · rintro ⟨s'', hreach, hsees⟩
      rcases hreach.cases_head with rfl | ⟨s', henters, hreach⟩
      · exact .inl hsees
      · exact .inr ⟨s', henters, (hbelow s' henters).2 ⟨s'', hreach, hsees⟩⟩

/-- More fuel than the rank changes nothing. -/
theorem walkFrom_eq_of_rank_lt {fuel' : Nat} (hfuel : d.rank s < fuel) (hfuel' : d.rank s < fuel') :
    d.walkFrom fuel s = d.walkFrom fuel' s := by
  induction fuel generalizing s fuel' with
  | zero => exact absurd hfuel (Nat.not_lt_zero _)
  | succ fuel ih =>
    obtain ⟨fuel', rfl⟩ : ∃ f, fuel' = f + 1 := Nat.exists_eq_succ_of_ne_zero (by omega)
    have hbelow : ∀ s', d.Enters s s' → d.walkFrom fuel s' = d.walkFrom fuel' s' := fun s' h =>
      ih (Nat.lt_of_lt_of_le (rank_lt h) (Nat.le_of_lt_succ hfuel))
        (Nat.lt_of_lt_of_le (rank_lt h) (Nat.le_of_lt_succ hfuel'))
    simp only [walkFrom, walkWithin]
    refine List.flatMap_congr fun n _ => ?_
    cases hitem : d.item? (s.here ++ [n]) with
    | none => rfl
    | some i => cases i with
      | file bytes => rfl
      | dir => exact hbelow _ (.dir hitem)
      | link t =>
        dsimp only
        cases hplace : d.place (Path.join s.path n) with
        | error f => rfl
        | ok q =>
          dsimp only
          by_cases hdir : d.isDirAt q = true
          · rw [if_pos hdir, if_pos hdir]
            by_cases hold : s.above.contains q = true
            · rw [if_pos hold, if_pos hold]
            · rw [if_neg hold, if_neg hold]
              exact hbelow _ (.link hitem hplace (isDirAt_iff.1 hdir) (by simpa using hold))
          · rw [if_neg hdir, if_neg hdir]

end

/-! ### What is seen -/

/-- The path of a stage leads to its place, a directory. -/
structure Stage.Shown (d : Disk) (s : Stage) : Prop where
  leads : d.place s.path = .ok s.here
  dir : d.item? s.here = some .dir

theorem Stage.Shown.path_ne_nil {d : Disk} {s : Stage} (h : s.Shown d) : s.path ≠ [] := by
  obtain ⟨k, hleads⟩ := place_eq_ok_iff_leadsTo.1 h.leads
  exact hleads.notEmpty

section
variable {d : Disk} (hd : d.IsTree) {s s' : Stage}
include hd

theorem Enters.exists_name (hs : d.Enters s s') :
    ∃ n, Name.Proper n ∧ s'.path = Path.join s.path n := by
  cases hs with
  | dir there => exact ⟨_, hd.proper there, rfl⟩
  | link there => exact ⟨_, hd.proper there, rfl⟩

theorem Stage.Shown.place_join (h : s.Shown d) {n : Name} {i : Item}
    (there : d.item? (s.here ++ [n]) = some i) (noLink : ∀ t, i ≠ .link t) :
    d.place (Path.join s.path n) = .ok (s.here ++ [n]) := by
  obtain ⟨k, hleads⟩ := place_eq_ok_iff_leadsTo.1 h.leads
  exact place_eq_ok_iff_leadsTo.2
    ⟨k, leadsTo_join_of_not_link (hd.proper there) hleads h.dir there noLink⟩

theorem Stage.Shown.enters (h : s.Shown d) (hs : d.Enters s s') : s'.Shown d := by
  cases hs with
  | dir there => exact ⟨h.place_join hd there (by simp), there⟩
  | link _ leads dir _ => exact ⟨leads, dir⟩

theorem Stage.Shown.reaches (h : s.Shown d) (hs : ReflTransGen d.Enters s s') : s'.Shown d := by
  induction hs with
  | refl => exact h
  | tail _ hs ih => exact ih.enters hd hs

/-- A file is seen where an item leads to a regular file. -/
theorem Stage.Shown.sees_file_iff (h : s.Shown d) {x : Text} :
    d.Sees s (.file x) ↔ ∃ n i, d.item? (s.here ++ [n]) = some i ∧ x = Path.join s.path n ∧
      d.isFile x = true := by
  constructor
  · intro hsees
    cases hsees with
    | @file n bytes there =>
      refine ⟨n, _, there, rfl, ?_⟩
      simp [isFile, h.place_join hd there, isFileAt, there]
    | @linked n t q there leads noDir =>
      refine ⟨n, _, there, rfl, ?_⟩
      obtain ⟨k, hleads⟩ := place_eq_ok_iff_leadsTo.1 leads
      obtain ⟨i, hi, noLink⟩ := hleads.lands hd
      cases i with
      | file bytes => simp [isFile, leads, isFileAt, hi]
      | dir => exact absurd hi noDir
      | link t => exact absurd rfl (noLink t)
  · rintro ⟨n, i, hi, rfl, hfile⟩
    cases i with
    | file bytes => exact .file hi
    | dir => simp [isFile, h.place_join hd hi, isFileAt, hi] at hfile
    | link t =>
      cases hplace : d.place (Path.join s.path n) with
      | error f => simp [isFile, hplace] at hfile
      | ok q =>
        refine .linked hi hplace fun hdir => ?_
        simp [isFile, hplace, isFileAt, hdir] at hfile

end

theorem sees_broken_iff {d : Disk} {s : Stage} {x : Text} {f : Fault} :
    d.Sees s (.broken x f) ↔ ∃ n t, d.item? (s.here ++ [n]) = some (.link t) ∧
      x = Path.join s.path n ∧ d.place x = .error f := by
  constructor
  · rintro (_ | _ | _ | ⟨there, fails⟩)
    exact ⟨_, _, there, rfl, fails⟩
  · rintro ⟨n, t, there, rfl, fails⟩
    exact .broken there fails

end GherkinIndex.Disk
