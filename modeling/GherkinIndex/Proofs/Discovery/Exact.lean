import GherkinIndex.Discovery
import GherkinIndex.Proofs.Glob.Matches
import GherkinIndex.Proofs.Path.Order

/-! What a search finds.

    A search is exact for some files and some faults if it finds just these files when there is no
    fault, and stops with one of the faults when there is. The search below a directory is exact for
    the feature files that a walk comes across and the links it finds broken, and searches one after
    the other are exact for what either of them is. Of the files found each is given once, in path
    order; below one directory no two of them have the same components, so there none is left out.

        walk            ──▶ sightings ──▶ search ──▶ ordered
        enters, sees        files, faults            one spelling of each path                    -/

namespace GherkinIndex

open Relation

namespace Disk

/-- A walk from a directory comes to an item of a name, shown as a path. -/
def Meets (d : Disk) (base : Text) (i : Item) (n : Name) (x : Text) : Prop :=
  ∃ p s, d.place base = .ok p ∧ ReflTransGen d.Enters ⟨p, [p], base⟩ s ∧
    d.item? (s.here ++ [n]) = some i ∧ x = Path.join s.path n

/-- A regular file, or a link to one, that a walk comes to and whose name is that of a feature. -/
def FeatureBelow (d : Disk) (base x : Text) : Prop :=
  ∃ i n, d.Meets base i n x ∧ d.isFile x = true ∧ Path.IsFeatureName n

/-- A link that a walk comes to and that does not resolve. -/
def BrokenBelow (d : Disk) (base x : Text) (f : Fault) : Prop :=
  ∃ t n, d.Meets base (.link t) n x ∧ d.place x = .error f

theorem Meets.base_ne_nil {d : Disk} {base x : Text} {i : Item} {n : Name}
    (h : d.Meets base i n x) : base ≠ [] := by
  obtain ⟨p, s, hplace, -⟩ := h
  obtain ⟨k, hleads⟩ := place_eq_ok_iff_leadsTo.1 hplace
  exact hleads.notEmpty

section
variable {d : Disk} (hd : d.IsTree) {base x : Text}
include hd

theorem exists_joinAll_of_enters {s s' : Stage} (h : ReflTransGen d.Enters s s') :
    ∃ ns, (∀ n ∈ ns, Name.Proper n) ∧ s'.path = Path.joinAll s.path ns := by
  induction h with
  | refl => exact ⟨[], by simp, rfl⟩
  | tail _ hstep ih =>
    obtain ⟨ns, hns, hpath⟩ := ih
    obtain ⟨n, hn, hnext⟩ := hstep.exists_name hd
    refine ⟨ns ++ [n], by simpa [or_imp, forall_and] using ⟨hns, hn⟩, ?_⟩
    rw [hnext, hpath, Path.joinAll, Path.joinAll, List.foldl_concat]

theorem Meets.exists_joinAll {i : Item} {n : Name} (h : d.Meets base i n x) :
    ∃ ns, (∀ n ∈ ns, Name.Proper n) ∧ x = Path.joinAll base ns := by
  obtain ⟨p, s, -, hreach, hi, rfl⟩ := h
  obtain ⟨ns, hns, hpath⟩ := exists_joinAll_of_enters hd hreach
  refine ⟨ns ++ [n], by simpa [or_imp, forall_and] using ⟨hns, hd.proper hi⟩, ?_⟩
  rw [hpath, Path.joinAll, Path.joinAll, List.foldl_concat]

/-- Below one directory a path has one spelling. -/
theorem FeatureBelow.eq_of_same {y : Text} (hx : d.FeatureBelow base x) (hy : d.FeatureBelow base y)
    (h : Path.same x y = true) : x = y := by
  obtain ⟨i, n, hx, -⟩ := hx
  obtain ⟨j, m, hy, -⟩ := hy
  obtain ⟨ns, hns, rfl⟩ := hx.exists_joinAll hd
  obtain ⟨ms, hms, rfl⟩ := hy.exists_joinAll hd
  exact Path.joinAll_eq_of_same hx.base_ne_nil hns hms h

/-- What the walk from a directory reports is seen where it comes. -/
theorem mem_walk_iff (hdir : d.isDir base = true) {y : Sighting} : y ∈ d.walk base ↔
    ∃ p s, d.place base = .ok p ∧ ReflTransGen d.Enters ⟨p, [p], base⟩ s ∧ s.Shown d ∧
      d.Sees s y := by
  obtain ⟨k, p, hleads, hp⟩ := isDir_iff.1 hdir
  have hwalk : d.walk base = d.walkFrom d.walkFuel ⟨p, [p], base⟩ := by
    simp [walk, hleads.place, walkFrom]
  have hbegin : Stage.Shown d ⟨p, [p], base⟩ := ⟨hleads.place, hp⟩
  rw [hwalk, mem_walkFrom_iff (rank_lt_walkFuel d _)]
  constructor
  · rintro ⟨s, hreach, hsees⟩
    exact ⟨p, s, hleads.place, hreach, hbegin.reaches hd hreach, hsees⟩
  · rintro ⟨p', s, hplace, hreach, -, hsees⟩
    obtain rfl := Except.ok.inj (hleads.place.symm.trans hplace)
    exact ⟨s, hreach, hsees⟩

/-- The place of the base is a directory, and every directory the walk enters is shown. -/
theorem Meets.shown (hdir : d.isDir base = true) {i : Item} {n : Name} (h : d.Meets base i n x) :
    ∃ p s, d.place base = .ok p ∧ ReflTransGen d.Enters ⟨p, [p], base⟩ s ∧ s.Shown d ∧
      d.item? (s.here ++ [n]) = some i ∧ x = Path.join s.path n := by
  obtain ⟨p, s, hplace, hreach, hi, hx⟩ := h
  obtain ⟨k, p', hleads, hp⟩ := isDir_iff.1 hdir
  obtain rfl := Except.ok.inj (hleads.place.symm.trans hplace)
  have hbegin : Stage.Shown d ⟨p', [p'], base⟩ := ⟨hplace, hp⟩
  exact ⟨p', s, hplace, hreach, hbegin.reaches hd hreach, hi, hx⟩

theorem isFeature_join_iff {s : Stage} (hs : s.Shown d) {n : Name} {i : Item}
    (hi : d.item? (s.here ++ [n]) = some i) :
    Path.isFeature (Path.join s.path n) = true ↔ Path.IsFeatureName n :=
  Path.isFeature_iff (Path.fileName_join hs.path_ne_nil (hd.proper hi))

theorem featureBelow_iff (hdir : d.isDir base = true) :
    Sighting.file x ∈ d.walk base ∧ Path.isFeature x = true ↔ d.FeatureBelow base x := by
  rw [mem_walk_iff hd hdir]
  constructor
  · rintro ⟨⟨p, s, hplace, hreach, hs, hsees⟩, hfeature⟩
    obtain ⟨n, i, hi, rfl, hfile⟩ := (hs.sees_file_iff hd).1 hsees
    exact ⟨i, n, ⟨p, s, hplace, hreach, hi, rfl⟩, hfile, (isFeature_join_iff hd hs hi).1 hfeature⟩
  · rintro ⟨i, n, hmeets, hfile, hname⟩
    obtain ⟨p, s, hplace, hreach, hs, hi, rfl⟩ := hmeets.shown hd hdir
    exact ⟨⟨p, s, hplace, hreach, hs, (hs.sees_file_iff hd).2 ⟨n, i, hi, rfl, hfile⟩⟩,
      (isFeature_join_iff hd hs hi).2 hname⟩

theorem brokenBelow_iff (hdir : d.isDir base = true) {f : Fault} :
    Sighting.broken x f ∈ d.walk base ↔ d.BrokenBelow base x f := by
  rw [mem_walk_iff hd hdir]
  constructor
  · rintro ⟨p, s, hplace, hreach, -, hsees⟩
    obtain ⟨n, t, there, rfl, fails⟩ := sees_broken_iff.1 hsees
    exact ⟨t, n, ⟨p, s, hplace, hreach, there, rfl⟩, fails⟩
  · rintro ⟨t, n, hmeets, fails⟩
    obtain ⟨p, s, hplace, hreach, hs, there, rfl⟩ := hmeets.shown hd hdir
    exact ⟨p, s, hplace, hreach, hs, sees_broken_iff.2 ⟨n, t, there, rfl, fails⟩⟩

end

end Disk

namespace Discovery

/-! ### Exact searches -/

/-- A search finds these files if there is none of these faults, and stops with one if there is. -/
structure Search.Exact (s : Search) (files : Text → Prop) (faults : Text → Fault → Prop) : Prop where
  found : ∀ fs, s.found = .ok fs → (∀ x, x ∈ fs ↔ files x) ∧ ∀ x f, ¬ faults x f
  stopped : ∀ e, s.found = .error e → ∃ x f, faults x f ∧ e = .walk x f

theorem Search.Exact.stops_iff {s : Search} {files : Text → Prop} {faults : Text → Fault → Prop}
    (h : s.Exact files faults) : (∃ e, s.found = .error e) ↔ ∃ x f, faults x f := by
  constructor
  · rintro ⟨e, he⟩
    obtain ⟨x, f, hfault, -⟩ := h.stopped e he
    exact ⟨x, f, hfault⟩
  · rintro ⟨x, f, hfault⟩
    cases hfound : s.found with
    | error e => exact ⟨e, rfl⟩
    | ok fs => exact absurd hfault ((h.found fs hfound).2 x f)

theorem Search.Exact.andThen {s t : Search} {files files' : Text → Prop}
    {faults faults' : Text → Fault → Prop} (hs : s.Exact files faults)
    (ht : t.Exact files' faults') :
    (s.andThen t).Exact (fun x => files x ∨ files' x) (fun x f => faults x f ∨ faults' x f) := by
  cases hfound : s.found with
  | error e =>
    obtain ⟨x, f, hfault, rfl⟩ := hs.stopped e hfound
    refine ⟨by simp [Search.andThen, hfound], ?_⟩
    rintro e he
    obtain rfl : _ = e := by simpa [Search.andThen, hfound] using he
    exact ⟨x, f, .inl hfault, rfl⟩
  | ok fs =>
    obtain ⟨hfiles, hnone⟩ := hs.found fs hfound
    cases hfound' : t.found with
    | error e =>
      obtain ⟨x, f, hfault, rfl⟩ := ht.stopped e hfound'
      refine ⟨by simp [Search.andThen, hfound, hfound'], ?_⟩
      rintro e he
      obtain rfl : _ = e := by simpa [Search.andThen, hfound, hfound'] using he
      exact ⟨x, f, .inr hfault, rfl⟩
    | ok gs =>
      obtain ⟨hfiles', hnone'⟩ := ht.found gs hfound'
      refine ⟨?_, by simp [Search.andThen, hfound, hfound']⟩
      rintro hs hhs
      obtain rfl : fs ++ gs = hs := by simpa [Search.andThen, hfound, hfound'] using hhs
      refine ⟨fun x => ?_, fun x f h => h.elim (hnone x f) (hnone' x f)⟩
      rw [List.mem_append, hfiles, hfiles']

theorem Search.Exact.congr {s : Search} {files files' : Text → Prop}
    {faults faults' : Text → Fault → Prop} (h : s.Exact files faults)
    (hfiles : ∀ x, files x ↔ files' x) (hfaults : ∀ x f, faults x f ↔ faults' x f) :
    s.Exact files' faults' := by
  obtain rfl : files = files' := funext fun x => propext (hfiles x)
  obtain rfl : faults = faults' := funext fun x => funext fun f => propext (hfaults x f)
  exact h

/-- A search that ends with the files of a list. -/
theorem exact_list (fs : List Text) (log : List Event) :
    Search.Exact ⟨.ok fs, log⟩ (· ∈ fs) (fun _ _ => False) :=
  ⟨by rintro gs ⟨⟩; simp, by simp⟩

theorem exact_ofSightings (base : Text) (xs : List Disk.Sighting) : (ofSightings base xs).Exact
    (fun x => .file x ∈ xs ∧ Path.isFeature x = true) (fun x f => .broken x f ∈ xs) := by
  induction xs with
  | nil => exact (exact_list [] []).congr (by simp) (by simp)
  | cons sighting xs ih =>
    cases sighting with
    | file p =>
      refine ((exact_list _ _).andThen ih).congr (fun x => ?_) (by simp)
      have hone : x ∈ (if Path.isFeature p = true then [p] else []) ↔
          x = p ∧ Path.isFeature x = true := by
        rw [List.mem_ite_nil_right, List.mem_singleton]
        constructor
        · rintro ⟨hp, rfl⟩
          exact ⟨rfl, hp⟩
        · rintro ⟨rfl, hp⟩
          exact ⟨hp, rfl⟩
      rw [hone, List.mem_cons, or_and_right, Disk.Sighting.file.injEq]
    | loop => exact ((exact_list [] _).andThen ih).congr (by simp) (by simp)
    | broken p f =>
      refine ⟨by simp [ofSightings], fun e he => ⟨p, f, by simp, ?_⟩⟩
      simpa [ofSightings] using he.symm

theorem exact_inDirectory {d : Disk} (hd : d.IsTree) {base : Text} (hdir : d.isDir base = true) :
    (inDirectory d base).Exact (d.FeatureBelow base) (d.BrokenBelow base) :=
  (exact_ofSightings base (d.walk base)).congr (fun _ => Disk.featureBelow_iff hd hdir)
    fun _ _ => Disk.brokenBelow_iff hd hdir

/-- What a path stands for: itself if it is a regular file, what lies below if it is a directory. -/
def StandsFor (d : Disk) (p x : Text) : Prop :=
  d.isFile p = true ∧ x = p ∨ d.isDir p = true ∧ d.FeatureBelow p x

theorem exact_ofMatches {d : Disk} (hd : d.IsTree) (ps : List Text) : (ofMatches d ps).Exact
    (fun x => ∃ p ∈ ps, StandsFor d p x)
    (fun x f => ∃ p ∈ ps, d.isDir p = true ∧ d.BrokenBelow p x f) := by
  induction ps with
  | nil => exact (exact_list [] []).congr (by simp) (by simp)
  | cons p ps ih =>
    have hone : Search.Exact (if d.isDir p then inDirectory d p
        else if d.isFile p then ⟨.ok [p], []⟩ else ⟨.ok [], []⟩)
        (StandsFor d p) (fun x f => d.isDir p = true ∧ d.BrokenBelow p x f) := by
      by_cases hdir : d.isDir p = true
      · rw [if_pos hdir]
        exact (exact_inDirectory hd hdir).congr
          (by simp [StandsFor, hdir, Disk.isFile_eq_false_of_isDir hdir]) (by simp [hdir])
      · rw [if_neg hdir]
        by_cases hfile : d.isFile p = true
        · rw [if_pos hfile]
          exact (exact_list [p] []).congr (by simp [StandsFor, hdir, hfile]) (by simp [hdir])
        · rw [if_neg hfile]
          exact (exact_list [] []).congr (by simp [StandsFor, hdir, hfile]) (by simp [hdir])
    exact (hone.andThen ih).congr (by simp) (by simp)

/-! ### Results -/

/-- The form of a result: in strict path order, so each path once, and every path a regular file. -/
structure Canonical (d : Disk) (fs : List Text) : Prop where
  increasing : fs.Pairwise (Path.precedes · · = true)
  nodup : fs.Nodup
  files : ∀ x ∈ fs, d.isFile x = true

theorem isFile_of_standsFor {d : Disk} {p x : Text} (h : StandsFor d p x) : d.isFile x = true := by
  rcases h with ⟨hfile, rfl⟩ | ⟨-, -, -, -, hfile, -⟩
  · exact hfile
  · exact hfile

/-- What is found is what the search found, in order. -/
theorem found_featureFiles (d : Disk) (input : Text) :
    (featureFiles d input).found = (search d input).found.map Path.ordered := by
  rcases hsearch : search d input with ⟨e | fs, log⟩
  · simp only [featureFiles, hsearch]
    rfl
  · simp only [featureFiles, hsearch]
    rfl

theorem found_featureFiles_eq_ok_iff {d : Disk} {input : Text} {fs : List Text} :
    (featureFiles d input).found = .ok fs ↔
      ∃ gs, (search d input).found = .ok gs ∧ fs = Path.ordered gs := by
  rw [found_featureFiles]
  cases (search d input).found with
  | error e => simp [Except.map]
  | ok gs => simp [Except.map, eq_comm]

theorem found_featureFiles_eq_error_iff {d : Disk} {input : Text} {e : DiscoveryError} :
    (featureFiles d input).found = .error e ↔ (search d input).found = .error e := by
  rw [found_featureFiles]
  cases (search d input).found with
  | error f => simp [Except.map]
  | ok gs => simp [Except.map]

/-- Everything found is a regular file, however it was found. -/
theorem isFile_of_mem_search {d : Disk} (hd : d.IsTree) {input : Text} {gs : List Text}
    (h : (search d input).found = .ok gs) : ∀ x ∈ gs, d.isFile x = true := by
  intro x hx
  rw [search] at h
  by_cases hglob : Path.hasGlob input = true
  · rw [if_pos hglob] at h
    cases hg : Glob.ofText input with
    | error e => simp [hg] at h
    | ok g =>
      rw [hg] at h
      obtain ⟨p, -, hp⟩ := (((exact_ofMatches hd (g.expand d)).found gs h).1 x).1 hx
      exact isFile_of_standsFor hp
  rw [if_neg hglob] at h
  by_cases hdir : d.isDir input = true
  · rw [if_pos hdir] at h
    obtain ⟨-, -, -, hfile, -⟩ := (((exact_inDirectory hd hdir).found gs h).1 x).1 hx
    exact hfile
  rw [if_neg hdir] at h
  by_cases hfile : d.isFile input = true
  · rw [if_pos hfile] at h
    obtain rfl : [input] = gs := by simpa using h
    rwa [List.mem_singleton.1 hx]
  · simp [if_neg hfile] at h

theorem canonical_of_found {d : Disk} (hd : d.IsTree) {input : Text} {fs : List Text}
    (h : (featureFiles d input).found = .ok fs) : Canonical d fs := by
  obtain ⟨gs, hgs, rfl⟩ := found_featureFiles_eq_ok_iff.1 h
  have hthin := Path.thinned_ordered gs
  exact ⟨hthin.increasing, Path.nodup_of_increasing hthin.increasing,
    fun x hx => isFile_of_mem_search hd hgs x (hthin.subset hx)⟩

/-- No walk goes on for ever, and the fuel it is given stops none before its end. -/
structure WalksEnd (d : Disk) : Prop where
  descends : WellFounded fun s' s => d.Enters s s'
  enough : ∀ s fuel, d.walkFuel ≤ fuel → d.walkFrom fuel s = d.walkFrom d.walkFuel s

/-- The result for a directory: the feature files below it, or one of the links found broken. -/
structure OfDirectory (d : Disk) (base : Text) (found : Except DiscoveryError (List Text)) :
    Prop where
  files : ∀ fs, found = .ok fs → ∀ x, x ∈ fs ↔ d.FeatureBelow base x
  stops : (∃ e, found = .error e) ↔ ∃ x f, d.BrokenBelow base x f
  walk : ∀ e, found = .error e → ∃ x f, d.BrokenBelow base x f ∧ e = .walk x f

/-- The result for a glob: what the paths that it matches stand for, in one spelling of each, or a
    link found broken below one of them. -/
structure OfGlob (d : Disk) (g : Glob) (found : Except DiscoveryError (List Text)) : Prop where
  files : ∀ fs, found = .ok fs → ∀ x ∈ fs, ∃ p, g.Matches d p ∧ StandsFor d p x
  covers : ∀ fs, found = .ok fs → ∀ p x, g.Matches d p → StandsFor d p x →
    ∃ y ∈ fs, Path.same y x = true
  stops : (∃ e, found = .error e) ↔
    ∃ p x f, g.Matches d p ∧ d.isDir p = true ∧ d.BrokenBelow p x f
  walk : ∀ e, found = .error e →
    ∃ p x f, g.Matches d p ∧ d.isDir p = true ∧ d.BrokenBelow p x f ∧ e = .walk x f

theorem ofDirectory_featureFiles {d : Disk} (hd : d.IsTree) {base : Text}
    (hglob : Path.hasGlob base = false) (hdir : d.isDir base = true) :
    OfDirectory d base (featureFiles d base).found := by
  have hsearch : search d base = inDirectory d base := by simp [search, hglob, hdir]
  have hexact := exact_inDirectory hd hdir
  rw [← hsearch] at hexact
  refine ⟨fun fs hfs x => ?_, ?_, fun e he => ?_⟩
  · obtain ⟨gs, hgs, rfl⟩ := found_featureFiles_eq_ok_iff.1 hfs
    have hfiles := (hexact.found gs hgs).1
    have hthin := Path.thinned_ordered gs
    constructor
    · exact fun hx => (hfiles x).1 (hthin.subset hx)
    · intro hx
      obtain ⟨y, hy, hsame⟩ := hthin.covers x ((hfiles x).2 hx)
      rwa [← ((hfiles y).1 (hthin.subset hy)).eq_of_same hd hx hsame]
  · simp only [found_featureFiles_eq_error_iff]
    exact hexact.stops_iff
  · exact hexact.stopped e (found_featureFiles_eq_error_iff.1 he)

theorem ofGlob_featureFiles {d : Disk} (hd : d.IsTree) {input : Text} {g : Glob}
    (hglob : Path.hasGlob input = true) (hg : Glob.ofText input = .ok g) :
    OfGlob d g (featureFiles d input).found := by
  have hsearch : search d input = ofMatches d (g.expand d) := by simp [search, hglob, hg]
  have hexact := exact_ofMatches hd (g.expand d)
  simp only [← hsearch, Glob.mem_expand_iff hd] at hexact
  refine ⟨fun fs hfs x hx => ?_, fun fs hfs p x hp hx => ?_, ?_, fun e he => ?_⟩
  · obtain ⟨gs, hgs, rfl⟩ := found_featureFiles_eq_ok_iff.1 hfs
    exact ((hexact.found gs hgs).1 x).1 ((Path.thinned_ordered gs).subset hx)
  · obtain ⟨gs, hgs, rfl⟩ := found_featureFiles_eq_ok_iff.1 hfs
    exact (Path.thinned_ordered gs).covers x (((hexact.found gs hgs).1 x).2 ⟨p, hp, hx⟩)
  · simp only [found_featureFiles_eq_error_iff]
    rw [hexact.stops_iff]
    constructor
    · rintro ⟨x, f, p, hp, hdir, hbroken⟩
      exact ⟨p, x, f, hp, hdir, hbroken⟩
    · rintro ⟨p, x, f, hp, hdir, hbroken⟩
      exact ⟨x, f, p, hp, hdir, hbroken⟩
  · obtain ⟨x, f, ⟨p, hp, hdir, hbroken⟩, rfl⟩ :=
      hexact.stopped e (found_featureFiles_eq_error_iff.1 he)
    exact ⟨p, x, f, hp, hdir, hbroken, rfl⟩

/-- CORRECT: on a file tree every walk ends; what is found is in strict path order and consists of
    regular files; for a directory it is the feature files that a walk from there comes to, and only
    a link that does not resolve makes it fail; for a glob it is the regular files matched and the
    feature files below the directories matched. -/
theorem featureFiles_exact (d : Disk) (hd : d.IsTree) (input : Text) :
    WalksEnd d ∧
      (∀ fs, (featureFiles d input).found = .ok fs → Canonical d fs) ∧
      (Path.hasGlob input = false → d.isDir input = true →
        OfDirectory d input (featureFiles d input).found) ∧
      ∀ g, Path.hasGlob input = true → Glob.ofText input = .ok g →
        OfGlob d g (featureFiles d input).found := by
  refine ⟨⟨Disk.wellFounded_enters d, fun s fuel hfuel => ?_⟩, fun fs => canonical_of_found hd,
    ofDirectory_featureFiles hd, fun g => ofGlob_featureFiles hd⟩
  have hrank := Disk.rank_lt_walkFuel d s
  exact Disk.walkFrom_eq_of_rank_lt (Nat.lt_of_lt_of_le hrank hfuel) hrank

/-- A directory with a link to itself and one to the directory it lies in. -/
def looped : Disk where
  items := [
    (["a.FEATURE".toList], .file ⟨#[]⟩),
    (["notes".toList], .file ⟨#[]⟩),
    (["specs".toList], .dir),
    (["specs".toList, "b.feature".toList], .file ⟨#[]⟩),
    (["specs".toList, "self".toList], .link ".".toList),
    (["specs".toList, "top".toList], .link "..".toList)]

theorem names_root_looped :
    looped.names [] = ["a.FEATURE".toList, "notes".toList, "specs".toList] :=
  List.mergeSort_of_pairwise (by decide)

theorem names_specs_looped : looped.names ["specs".toList] =
    ["b.feature".toList, "self".toList, "top".toList] :=
  List.mergeSort_of_pairwise (by decide)

/-- The walk passes `top` once and enters `specs` again, but as a sub-directory. -/
theorem walk_looped : looped.walk "specs".toList = [.file "specs/b.feature".toList, .loop,
    .file "specs/top/a.FEATURE".toList, .file "specs/top/notes".toList,
    .file "specs/top/specs/b.feature".toList, .loop, .loop] := by
  -- from the innermost directory out, since each level lists names of its own
  have hagain : ∀ fuel, looped.walkWithin (fuel + 1) [["specs".toList], [], ["specs".toList]]
      ["specs".toList] "specs/top/specs".toList =
        [.file "specs/top/specs/b.feature".toList, .loop, .loop] := by
    intro fuel
    rw [Disk.walkWithin, names_specs_looped]
    rfl
  have htop : ∀ fuel, looped.walkWithin (fuel + 2) [[], ["specs".toList]] [] "specs/top".toList =
      [.file "specs/top/a.FEATURE".toList, .file "specs/top/notes".toList,
        .file "specs/top/specs/b.feature".toList, .loop, .loop] := by
    intro fuel
    rw [Disk.walkWithin, names_root_looped]
    show _ :: _ :: (looped.walkWithin (fuel + 1) [["specs".toList], [], ["specs".toList]]
      ["specs".toList] "specs/top/specs".toList ++ []) = _
    rw [hagain]
    rfl
  show looped.walkWithin (61 + 3) [["specs".toList]] ["specs".toList] "specs".toList = _
  rw [Disk.walkWithin, names_specs_looped]
  show _ :: _ :: (looped.walkWithin (61 + 2) [[], ["specs".toList]] [] "specs/top".toList ++ []) = _
  rw [htop]
  rfl

theorem expand_looped : Glob.expand ⟨false, [.wild [.anyRun]], false⟩ looped =
    ["a.FEATURE".toList, "notes".toList, "specs".toList] := by
  have hnames : looped.namesIn ['.'] = ["a.FEATURE".toList, "notes".toList, "specs".toList] :=
    names_root_looped
  show ((looped.namesIn ['.']).map fun n =>
    (Glob.extend ['.'] n, some [Glob.Part.wild [.anyRun]])).flatMap _ = _
  rw [hnames]
  rfl

theorem search_directory_looped : (search looped "specs".toList).found =
    .ok ["specs/b.feature".toList, "specs/top/a.FEATURE".toList,
      "specs/top/specs/b.feature".toList] := by
  show (ofSightings _ (looped.walk "specs".toList)).found = _
  rw [walk_looped]
  rfl

theorem search_glob_looped : (search looped "*".toList).found =
    .ok ["a.FEATURE".toList, "notes".toList, "specs/b.feature".toList,
      "specs/top/a.FEATURE".toList, "specs/top/specs/b.feature".toList] := by
  show (ofMatches looped (Glob.expand ⟨false, [.wild [.anyRun]], false⟩ looped)).found = _
  rw [expand_looped]
  show (Search.andThen _ (Search.andThen _
    (Search.andThen (ofSightings _ (looped.walk "specs".toList)) _))).found = _
  rw [walk_looped]
  rfl

theorem featureFiles_exact_looped : looped.IsTree ∧
    (featureFiles looped "specs".toList).found = .ok ["specs/b.feature".toList,
      "specs/top/a.FEATURE".toList, "specs/top/specs/b.feature".toList] ∧
    looped.FeatureBelow "specs".toList "specs/top/specs/b.feature".toList ∧
    (featureFiles looped "*".toList).found = .ok ["a.FEATURE".toList, "notes".toList,
      "specs/b.feature".toList, "specs/top/a.FEATURE".toList,
      "specs/top/specs/b.feature".toList] ∧
    ∃ g p, Glob.ofText "*".toList = .ok g ∧ g.Matches looped p ∧
      StandsFor looped p "notes".toList := by
  have htree : looped.IsTree := by decide
  have hwalked : (featureFiles looped "specs".toList).found = .ok ["specs/b.feature".toList,
      "specs/top/a.FEATURE".toList, "specs/top/specs/b.feature".toList] := by
    rw [found_featureFiles, search_directory_looped]
    exact congrArg Except.ok (Path.ordered_of_increasing (by decide))
  have hmatched : (featureFiles looped "*".toList).found = .ok ["a.FEATURE".toList,
      "notes".toList, "specs/b.feature".toList, "specs/top/a.FEATURE".toList,
      "specs/top/specs/b.feature".toList] := by
    rw [found_featureFiles, search_glob_looped]
    exact congrArg Except.ok (Path.ordered_of_increasing (by decide))
  have hglob : Glob.ofText "*".toList = .ok ⟨false, [.wild [.anyRun]], false⟩ := rfl
  have hdir := (featureFiles_exact looped htree "specs".toList).2.2.1 (by decide) (by decide)
  have hof := (featureFiles_exact looped htree "*".toList).2.2.2 _ (by decide) hglob
  obtain ⟨p, hp, hstands⟩ := hof.files _ hmatched "notes".toList (by decide)
  exact ⟨htree, hwalked, (hdir.files _ hwalked _).1 (by decide), hmatched, _, p, hglob, hp, hstands⟩

end Discovery
end GherkinIndex
