import GherkinIndex.Glob.Expand
import GherkinIndex.Proofs.Disk.Walk

/-! What a glob matches.

    A glob is matched part by part. A name without wildcards has to be there, a part with wildcards
    takes a name that is listed, and `**` goes down through any number of directories, links
    included. The expansion lists directories as it goes, and its fuel lasts: a link on the way counts
    towards the forty of the path, and between two links the way only goes down.

        **/*.feature       a ──▶ a/l ⇢ a ──▶ a/l/l ⇢ a ──▶ …       at most forty times `l`       -/

namespace GherkinIndex.Glob

open Disk Relation

/-- Whether a name without wildcards is there; dots are in every directory. -/
def HasName (d : Disk) (path : Text) (n : Name) : Prop :=
  if n = ['.'] ∨ n = ['.', '.'] then d.isDir path = true
  else d.isThere (extend path n) = true ∨ d.isDir (extend path n) = true

/-- A directory, or a link to one, listed in another. -/
def SubDir (d : Disk) (path c : Text) : Prop :=
  ∃ n ∈ d.namesIn path, c = extend path n ∧ d.isDir c = true

/-- Parts matched from a path on reach another path. -/
inductive Reaches (d : Disk) : List Part → Text → Text → Prop
  | done (path : Text) : Reaches d [] path path
  | literal {n : Name} {rest : List Part} {path r : Text} (there : HasName d path n)
      (next : Reaches d rest (extend path n) r) : Reaches d (.literal n :: rest) path r
  | wild {ks : List Token} {n : Name} {rest : List Part} {path r : Text}
      (listed : n ∈ d.namesIn path) (fits : (Part.wild ks).fits n = true)
      (next : Reaches d rest (extend path n) r) : Reaches d (.wild ks :: rest) path r
  | dots {ks : List Token} {n : Name} {rest : List Part} {path r : Text}
      (dir : d.isDir path = true) (dots : n = ['.', '.'] ∨ n = ['.'])
      (starts : (Part.wild ks).startsWithDot = true) (fits : (Part.wild ks).fits n = true)
      (next : Reaches d rest (Path.join path n) r) : Reaches d (.wild ks :: rest) path r
  /-- `**` twice is `**` once. -/
  | again {rest : List Part} {path r : Text} (next : Reaches d (.anywhere :: rest) path r) :
      Reaches d (.anywhere :: .anywhere :: rest) path r
  /-- A `**` at the end stands for the directories below. -/
  | last {path r : Text} (down : TransGen (SubDir d) path r) : Reaches d [.anywhere] path r
  | anywhere {part : Part} {n : Name} {rest : List Part} {path m r : Text}
      (down : ReflTransGen (SubDir d) path m) (plain : part ≠ .anywhere)
      (listed : n ∈ d.namesIn m) (fits : part.fits n = true)
      (next : Reaches d rest (extend m n) r) : Reaches d (.anywhere :: part :: rest) path r

/-- With a slash at the end a glob allows directories only. -/
def Allows (g : Glob) (d : Disk) (r : Text) : Prop := g.onlyDirs = true → d.isDir r = true

/-- A glob matches what its parts reach and it allows. -/
structure Matches (g : Glob) (d : Disk) (r : Text) : Prop where
  parts : g.parts ≠ []
  reaches : Reaches d g.parts (if g.absolute then ['/'] else ['.']) r
  allowed : g.Allows d r

/-! ### Names put behind paths -/

section
variable {d : Disk} {path : Text} {p q : Place} {n : Name} {k : Nat}

theorem component?_ne_here (piece : Text) : Path.component? piece ≠ some .here := by
  unfold Path.component?
  by_cases hidle : (piece.isEmpty || piece == ['.']) = true
  · simp [hidle]
  · by_cases hup : (piece == ['.', '.']) = true <;> simp [hidle, hup]

/-- The current directory is written with dots and slashes only. -/
theorem stays_of_components (h : Path.components path = [.here]) :
    Path.isAbsolute path = false ∧ ∀ s ∈ steps path, s = .stay := by
  have hstay : ∀ piece, Path.component? piece = none → step piece = .stay := by
    intro piece hnone
    by_cases hidle : (piece.isEmpty || piece == ['.']) = true
    · rw [step, if_pos hidle]
    · by_cases hup : (piece == ['.', '.']) = true <;> simp [Path.component?, hidle, hup] at hnone
  obtain ⟨first, pieces, hpieces⟩ : ∃ first pieces, path.splitOn '/' = first :: pieces :=
    List.exists_cons_of_ne_nil (List.splitOn_ne_nil '/' path)
  simp only [Path.components, hpieces] at h
  by_cases habs : Path.isAbsolute path = true
  · simp [habs] at h
  · rw [if_neg habs] at h
    refine ⟨by simpa using habs, ?_⟩
    by_cases hfirst : first = ['.']
    · have hrest : ∀ piece ∈ pieces, Path.component? piece = none := by simpa [hfirst] using h
      simp only [steps, hpieces, List.map_cons, List.forall_mem_cons, List.forall_mem_map, hfirst]
      exact ⟨rfl, fun piece hpiece => hstay piece (hrest piece hpiece)⟩
    · have hmem : Path.Component.here ∈ (Path.component? first).toList ++
          pieces.filterMap Path.component? := by
        rw [beq_eq_false_iff_ne.2 hfirst] at h
        simp only [Bool.false_eq_true, if_false] at h
        simp [h]
      rw [List.mem_append, Option.mem_toList, List.mem_filterMap] at hmem
      rcases hmem with hmem | ⟨piece, -, hmem⟩
      · exact absurd hmem (component?_ne_here first)
      · exact absurd hmem (component?_ne_here piece)

theorem leadsTo_extend_iff (hn : n.Proper) (h : d.LeadsTo path k p) {k' : Nat} :
    d.LeadsTo (extend path n) k' q ↔
      ∃ j, Route d p [.name n] j q ∧ k' = k + j ∧ k' ≤ maxLinks := by
  unfold extend
  by_cases hhere : (Path.components path == [.here]) = true
  · rw [if_pos hhere]
    obtain ⟨habs, hstay⟩ := stays_of_components (by simpa using hhere)
    have hcwd : start d.cwd path = d.cwd := by simp [start, habs]
    obtain ⟨rfl, rfl⟩ := (hcwd ▸ h.route).eq_of_stays hstay
    have hsteps : steps n = [.name n] := by
      simp [steps, List.splitOn_eq_singleton hn.noSlash, step_name hn]
    have hstart : start d.cwd n = d.cwd := by simp [start, Path.isAbsolute_name hn]
    constructor
    · rintro ⟨-, -, hfew, hroute⟩
      exact ⟨k', hstart ▸ hsteps ▸ hroute, by simp, hfew⟩
    · rintro ⟨j, hroute, rfl, hfew⟩
      exact ⟨hn.notEmpty, hn.noNul, hfew, by simpa [hstart, hsteps] using hroute⟩
  · rw [if_neg hhere]
    exact leadsTo_join_iff hn h

theorem fileName_extend (hpath : path ≠ []) (hn : n.Proper) :
    Path.fileName (extend path n) = some n := by
  by_cases hhere : (Path.components path == [.here]) = true
  · rw [extend, if_pos hhere]
    have hcomponents : Path.components n = [.name n] := by
      simp [Path.components, List.splitOn_eq_singleton hn.noSlash, Path.isAbsolute_name hn,
        hn.notHere, Path.component?_name hn]
    simp [Path.fileName, hcomponents]
  · rw [extend, if_neg hhere]
    exact Path.fileName_join hpath hn

theorem mem_namesIn_iff : n ∈ d.namesIn path ↔
    ∃ k p i, d.LeadsTo path k p ∧ d.item? (p ++ [n]) = some i := by
  constructor
  · intro h
    cases hplace : d.place path with
    | error f => simp [namesIn, hplace] at h
    | ok p =>
      simp only [namesIn, hplace] at h
      obtain ⟨k, hleads⟩ := place_eq_ok_iff_leadsTo.1 hplace
      obtain ⟨i, hi⟩ := mem_names_iff.1 h
      exact ⟨k, p, i, hleads, hi⟩
  · rintro ⟨k, p, i, hleads, hi⟩
    simpa [namesIn, hleads.place, mem_names_iff] using ⟨i, hi⟩

end

/-! ### The way on -/

/-- A bound on what the directory that a path leads to has before it: the links the path may still
    pass, each with a way down behind it, and the way down from here. -/
def Room (d : Disk) (path : Text) (w : Nat) : Prop :=
  ∀ k p, d.LeadsTo path k p → d.item? p = some .dir →
    (maxLinks - k) * (d.places.card + 1) + (d.placesBelow p).card < w

section
variable {d : Disk} (hd : d.IsTree) {path : Text} {n : Name} {w : Nat}
include hd

theorem isDir_of_listed (h : n ∈ d.namesIn path) : d.isDir path = true := by
  obtain ⟨k, p, i, hleads, hi⟩ := mem_namesIn_iff.1 h
  exact isDir_iff.2 ⟨k, p, hleads, by simpa using hd.dir_dropLast hi⟩

/-- The room goes down from a directory to what is listed in it. -/
theorem room_extend (h : n ∈ d.namesIn path) (hroom : Room d path (w + 1)) :
    Room d (extend path n) w := by
  obtain ⟨k, p, i, hleads, hi⟩ := mem_namesIn_iff.1 h
  have hdir : d.item? p = some .dir := by simpa using hd.dir_dropLast hi
  have hhere := hroom k p hleads hdir
  intro k' q hleads' hdir'
  obtain ⟨j, hroute, rfl, hfew⟩ := (leadsTo_extend_iff (hd.proper hi) hleads).1 hleads'
  cases hroute with
  | name _ there _ rest =>
    cases rest with
    | here =>
      have hbelow := card_placesBelow_lt there
      rw [Nat.add_zero]
      omega
  | @link _ _ _ t _ j _ _ _ rest =>
    have hbelow := card_placesBelow_le d q
    have hlinks : (maxLinks - (k + (j + 1)) + 1) * (d.places.card + 1) ≤
        (maxLinks - k) * (d.places.card + 1) := Nat.mul_le_mul_right _ (by omega)
    rw [Nat.succ_mul] at hlinks
    omega

theorem exists_room (h : n ∈ d.namesIn path) (hroom : Room d path w) :
    ∃ w', w = w' + 1 ∧ Room d (extend path n) w' := by
  obtain ⟨k, p, i, hleads, hi⟩ := mem_namesIn_iff.1 h
  have hhere := hroom k p hleads (by simpa using hd.dir_dropLast hi)
  obtain ⟨w', rfl⟩ : ∃ w', w = w' + 1 := Nat.exists_eq_succ_of_ne_zero (by omega)
  exact ⟨w', rfl, room_extend hd h hroom⟩

end

/-- Room enough for every path. -/
def fullRoom (d : Disk) : Nat := (maxLinks + 2) * (d.items.length + 2)

theorem room_fullRoom (d : Disk) (path : Text) : Room d path (fullRoom d) := by
  intro k p _ _
  have hplaces := card_places_le d
  have hbelow := card_placesBelow_le d p
  calc (maxLinks - k) * (d.places.card + 1) + (d.placesBelow p).card
      ≤ maxLinks * (d.items.length + 2) + (d.items.length + 1) :=
        Nat.add_le_add (Nat.mul_le_mul (Nat.sub_le ..) (by omega)) (by omega)
    _ < fullRoom d := by rw [fullRoom, Nat.add_mul]; omega

/-! ### Parts taken apart -/

/-- An item listed under a name that the first part fits reaches a path by the rest. -/
def Fitting (d : Disk) : List Part → Text → Text → Prop
  | [], _, _ => False
  | part :: rest, c, r =>
    ∃ n, Path.fileName c = some n ∧ part.fits n = true ∧ Reaches d rest c r

/-- What a listed item reaches by parts of which the first one has wildcards. Where that is `**`, the
    item fits the part behind it, or is one of the directories to go down through. -/
def Through (d : Disk) (parts : List Part) (c r : Text) : Prop :=
  if parts.head? = some .anywhere then
    (if parts.dropWhile (· == .anywhere) = [] then d.isDir c = true ∧ r = c
      else Fitting d (parts.dropWhile (· == .anywhere)) c r) ∨
    d.isDir c = true ∧ Reaches d (.anywhere :: parts.dropWhile (· == .anywhere)) c r
  else Fitting d parts c r

section
variable {d : Disk} {rest : List Part} {path r : Text}

theorem reaches_nil_iff : Reaches d [] path r ↔ r = path :=
  ⟨by rintro ⟨⟩; rfl, by rintro rfl; exact .done r⟩

theorem reaches_literal_iff {n : Name} : Reaches d (.literal n :: rest) path r ↔
    HasName d path n ∧ Reaches d rest (extend path n) r := by
  constructor
  · intro h
    cases h with
    | literal there next => exact ⟨there, next⟩
  · rintro ⟨there, next⟩
    exact .literal there next

theorem reaches_anywhere_dropWhile : Reaches d (.anywhere :: rest) path r ↔
    Reaches d (.anywhere :: rest.dropWhile (· == .anywhere)) path r := by
  induction rest with
  | nil => rfl
  | cons part rest ih =>
    by_cases hpart : part = .anywhere
    · subst hpart
      rw [List.dropWhile_cons_of_pos (by simp), ← ih]
      constructor
      · intro h
        cases h with
        | again next => exact next
        | anywhere _ plain => exact absurd rfl plain
      · exact .again
    · rw [List.dropWhile_cons_of_neg (by simpa using hpart)]

theorem reaches_last_iff : Reaches d [.anywhere] path r ↔ ∃ n ∈ d.namesIn path,
    (d.isDir (extend path n) = true ∧ r = extend path n) ∨
      d.isDir (extend path n) = true ∧ Reaches d [.anywhere] (extend path n) r := by
  constructor
  · intro h
    cases h with
    | last down =>
      obtain ⟨c, ⟨n, listed, rfl, dir⟩, down⟩ := TransGen.head'_iff.1 down
      refine ⟨n, listed, ?_⟩
      rcases reflTransGen_iff_eq_or_transGen.1 down with rfl | down
      · exact .inl ⟨dir, rfl⟩
      · exact .inr ⟨dir, .last down⟩
  · rintro ⟨n, listed, ⟨dir, rfl⟩ | ⟨dir, h⟩⟩
    · exact .last (.single ⟨n, listed, rfl, dir⟩)
    · cases h with
      | last down => exact .last (.head ⟨n, listed, rfl, dir⟩ down)

variable (hd : d.IsTree)
include hd

/-- The name under which an item is listed is the one that is fitted. -/
theorem fitting_extend_iff {n : Name} {part : Part} (h : n ∈ d.namesIn path) :
    Fitting d (part :: rest) (extend path n) r ↔
      part.fits n = true ∧ Reaches d rest (extend path n) r := by
  obtain ⟨k, p, i, hleads, hi⟩ := mem_namesIn_iff.1 h
  simp [Fitting, fileName_extend hleads.notEmpty (hd.proper hi)]

theorem reaches_wild_iff {ks : List Token} : Reaches d (.wild ks :: rest) path r ↔
    d.isDir path = true ∧
      ((∃ n, (n = ['.', '.'] ∨ n = ['.']) ∧ (Part.wild ks).startsWithDot = true ∧
          (Part.wild ks).fits n = true ∧ Reaches d rest (Path.join path n) r) ∨
        ∃ n ∈ d.namesIn path, Through d (.wild ks :: rest) (extend path n) r) := by
  have hthrough : ∀ n ∈ d.namesIn path, Through d (.wild ks :: rest) (extend path n) r ↔
      (Part.wild ks).fits n = true ∧ Reaches d rest (extend path n) r := by
    intro n hn
    rw [Through, if_neg (by simp), fitting_extend_iff hd hn]
  constructor
  · intro h
    cases h with
    | wild listed fits next =>
      exact ⟨isDir_of_listed hd listed, .inr ⟨_, listed, (hthrough _ listed).2 ⟨fits, next⟩⟩⟩
    | dots dir dots starts fits next => exact ⟨dir, .inl ⟨_, dots, starts, fits, next⟩⟩
  · rintro ⟨dir, ⟨n, dots, starts, fits, next⟩ | ⟨n, listed, hn⟩⟩
    · exact .dots dir dots starts fits next
    · obtain ⟨fits, next⟩ := (hthrough n listed).1 hn
      exact .wild listed fits next

theorem reaches_behind_anywhere_iff {part : Part} (hplain : part ≠ .anywhere) :
    Reaches d (.anywhere :: part :: rest) path r ↔ ∃ n ∈ d.namesIn path,
      Fitting d (part :: rest) (extend path n) r ∨
        d.isDir (extend path n) = true ∧
          Reaches d (.anywhere :: part :: rest) (extend path n) r := by
  constructor
  · intro h
    cases h with
    | again => exact absurd rfl hplain
    | anywhere down _ listed fits next =>
      rcases down.cases_head with rfl | ⟨c, ⟨n, listed', rfl, dir⟩, down⟩
      · exact ⟨_, listed, .inl ((fitting_extend_iff hd listed).2 ⟨fits, next⟩)⟩
      · exact ⟨n, listed', .inr ⟨dir, .anywhere down hplain listed fits next⟩⟩
  · rintro ⟨n, listed, h | ⟨dir, h⟩⟩
    · obtain ⟨fits, next⟩ := (fitting_extend_iff hd listed).1 h
      exact .anywhere .refl hplain listed fits next
    · cases h with
      | again => exact absurd rfl hplain
      | anywhere down _ listed' fits next =>
        exact .anywhere (.head ⟨n, listed, rfl, dir⟩ down) hplain listed' fits next

theorem reaches_anywhere_iff : Reaches d (.anywhere :: rest) path r ↔
    ∃ n ∈ d.namesIn path, Through d (.anywhere :: rest) (extend path n) r := by
  have hdrop : (Part.anywhere :: rest).dropWhile (· == .anywhere) =
      rest.dropWhile (· == .anywhere) := List.dropWhile_cons_of_pos (by simp)
  have hhead : (Part.anywhere :: rest).head? = some .anywhere := rfl
  simp only [Through, hdrop, hhead, if_true]
  rw [reaches_anywhere_dropWhile]
  cases hparts : rest.dropWhile (· == .anywhere) with
  | nil => simpa only [if_true] using reaches_last_iff
  | cons part parts =>
    have hplain : part ≠ .anywhere := by
      simpa [hparts] using List.head?_dropWhile_not (· == Part.anywhere) rest
    simpa only [if_neg (List.cons_ne_nil part parts)] using reaches_behind_anywhere_iff hd hplain

end

/-! ### The expansion -/

/-- The paths that candidates lead to. -/
def results (g : Glob) (d : Disk) (fuel : Nat) (cs : List Candidate) : List Text :=
  cs.flatMap (expandWithin g d fuel)

/-- With so much fuel, expanding a candidate gives what it reaches. -/
def Expands (g : Glob) (d : Disk) (fuel : Nat) : Prop :=
  ∀ c parts r w, Room d c w → parts.length * fullRoom d + w < fuel →
    (r ∈ expandWithin g d fuel (c, some parts) ↔ Through d parts c r ∧ g.Allows d r)

/-- What is expanded for an item whose name has to fit the first part. -/
def hereOf (g : Glob) (d : Disk) (fuel : Nat) (parts : List Part) (c : Text) : List Text :=
  match parts, Path.fileName c with
  | part :: rest, some name =>
    if !part.fits name then []
    else if rest.isEmpty then (if g.onlyDirs && !d.isDir c then [] else [c])
    else results g d fuel (below d rest c)
  | _, _ => []

section
variable {g : Glob} {d : Disk} {fuel : Nat} {r : Text}

theorem expandWithin_succ {c : Text} {parts : List Part} :
    expandWithin g d (fuel + 1) (c, some parts) =
      if parts.head? == some .anywhere then
        (if (parts.dropWhile (· == .anywhere)).isEmpty then (if d.isDir c then [c] else [])
          else hereOf g d fuel (parts.dropWhile (· == .anywhere)) c) ++
        (if d.isDir c then
          results g d fuel (below d (.anywhere :: parts.dropWhile (· == .anywhere)) c) else [])
      else hereOf g d fuel parts c := rfl

theorem below_of_wildcards {part : Part} (hpart : ∀ n, part ≠ .literal n) {rest : List Part}
    {path : Text} : below d (part :: rest) path = if d.isDir path = true then
      ([['.', '.'], ['.']].filter fun n => part.startsWithDot && part.fits n).flatMap
          (fun n => settle rest (below d rest) (Path.join path n)) ++
        (d.namesIn path).map fun n => (extend path n, some (part :: rest))
    else [] := by
  cases part with
  | literal n => exact absurd rfl (hpart n)
  | wild ks => rfl
  | anywhere => rfl

theorem mem_ite_onlyDirs_iff {c : Text} :
    r ∈ (if g.onlyDirs && !d.isDir c then [] else [c]) ↔ r = c ∧ g.Allows d r := by
  unfold Allows
  by_cases hleft : g.onlyDirs = true ∧ d.isDir c = false
  · obtain ⟨honly, hnone⟩ := hleft
    rw [if_pos (by simp [honly, hnone])]
    simp only [List.not_mem_nil, false_iff]
    rintro ⟨rfl, hdir⟩
    simp [hdir honly] at hnone
  · rw [if_neg (by simpa using hleft), List.mem_singleton]
    constructor
    · rintro rfl
      exact ⟨rfl, fun honly => by simpa [honly] using hleft⟩
    · exact And.left

theorem mem_results_ite_iff {p : Prop} [Decidable p] {cs : List Candidate} :
    r ∈ results g d fuel (if p then cs else []) ↔ p ∧ r ∈ results g d fuel cs := by
  by_cases hp : p <;> simp [hp, results]

/-- A path that the first part took at once matches if nothing is left, and goes on if something is. -/
theorem mem_results_settle_iff (hfuel : 0 < fuel) {rest : List Part} {c : Text}
    (hrest : rest ≠ [] →
      (r ∈ results g d fuel (below d rest c) ↔ Reaches d rest c r ∧ g.Allows d r)) :
    r ∈ results g d fuel (settle rest (below d rest) c) ↔ Reaches d rest c r ∧ g.Allows d r := by
  unfold settle
  cases rest with
  | nil =>
    obtain ⟨fuel, rfl⟩ : ∃ f, fuel = f + 1 := Nat.exists_eq_succ_of_ne_zero (by omega)
    have hone : results g d (fuel + 1) [(c, none)] =
        (if g.onlyDirs && !d.isDir c then [] else [c]) := by simp [results, expandWithin]
    rw [if_pos List.isEmpty_nil, hone, mem_ite_onlyDirs_iff, reaches_nil_iff]
  | cons part rest => exact hrest (List.cons_ne_nil part rest)

/-- A part with wildcards goes on from dot entries, if it names them, and from what is listed. -/
theorem mem_results_wildcards_iff {part : Part} (hpart : ∀ n, part ≠ .literal n) {rest : List Part}
    {path : Text}
    (hsettle : ∀ c, r ∈ results g d fuel (settle rest (below d rest) c) ↔
      Reaches d rest c r ∧ g.Allows d r)
    (hlisted : ∀ n ∈ d.namesIn path, (r ∈ expandWithin g d fuel (extend path n, some (part :: rest)) ↔
      Through d (part :: rest) (extend path n) r ∧ g.Allows d r)) :
    r ∈ results g d fuel (below d (part :: rest) path) ↔
      (d.isDir path = true ∧
        ((∃ n, (n = ['.', '.'] ∨ n = ['.']) ∧ part.startsWithDot = true ∧ part.fits n = true ∧
            Reaches d rest (Path.join path n) r) ∨
          ∃ n ∈ d.namesIn path, Through d (part :: rest) (extend path n) r)) ∧ g.Allows d r := by
  rw [below_of_wildcards hpart, mem_results_ite_iff, and_assoc]
  refine and_congr_right fun _ => ?_
  rw [results, List.flatMap_append, List.mem_append, List.flatMap_assoc, List.flatMap_map,
    List.mem_flatMap, List.mem_flatMap, or_and_right]
  refine or_congr ?_ ?_
  · constructor
    · rintro ⟨n, hn, h⟩
      obtain ⟨hreach, hallowed⟩ := (hsettle _).1 h
      obtain ⟨hdots, hfits⟩ := List.mem_filter.1 hn
      obtain ⟨hstarts, hfits⟩ := Bool.and_eq_true_iff.1 hfits
      exact ⟨⟨n, by simpa using hdots, hstarts, hfits, hreach⟩, hallowed⟩
    · rintro ⟨⟨n, hdots, hstarts, hfits, hreach⟩, hallowed⟩
      exact ⟨n, List.mem_filter.2 ⟨by simpa using hdots, by simp [hstarts, hfits]⟩,
        (hsettle _).2 ⟨hreach, hallowed⟩⟩
  · constructor
    · rintro ⟨n, hn, h⟩
      obtain ⟨hthrough, hallowed⟩ := (hlisted n hn).1 h
      exact ⟨⟨n, hn, hthrough⟩, hallowed⟩
    · rintro ⟨⟨n, hn, hthrough⟩, hallowed⟩
      exact ⟨n, hn, (hlisted n hn).2 ⟨hthrough, hallowed⟩⟩

theorem hasName_iff {path : Text} {n : Name} : HasName d path n ↔
    (if n == ['.'] || n == ['.', '.'] then d.isDir path
      else d.isThere (extend path n) || d.isDir (extend path n)) = true := by
  unfold HasName
  by_cases hdots : n = ['.'] ∨ n = ['.', '.'] <;> simp [hdots]

section
variable (hd : d.IsTree) (hexpand : Expands g d fuel)
include hd hexpand

theorem mem_results_below_iff {parts : List Part} (hparts : parts ≠ []) {path : Text} {w : Nat}
    (hroom : Room d path w) (hfuel : parts.length * fullRoom d + w ≤ fuel) :
    r ∈ results g d fuel (below d parts path) ↔ Reaches d parts path r ∧ g.Allows d r := by
  induction parts generalizing path w with
  | nil => exact absurd rfl hparts
  | cons part rest ih =>
    have hpos : 0 < fullRoom d := Nat.mul_pos (by decide) (by omega)
    rw [List.length_cons, Nat.succ_mul] at hfuel
    have hsettle : ∀ c, r ∈ results g d fuel (settle rest (below d rest) c) ↔
        Reaches d rest c r ∧ g.Allows d r := fun c =>
      mem_results_settle_iff (by omega) fun hrest => ih hrest (room_fullRoom d c) (by omega)
    -- what is listed has less room, and as many parts before it
    have hlisted : ∀ n ∈ d.namesIn path,
        (r ∈ expandWithin g d fuel (extend path n, some (part :: rest)) ↔
          Through d (part :: rest) (extend path n) r ∧ g.Allows d r) := by
      intro n hn
      obtain ⟨w', rfl, hroom'⟩ := exists_room hd hn hroom
      refine hexpand _ _ _ w' hroom' ?_
      rw [List.length_cons, Nat.succ_mul]
      omega
    cases part with
    | literal n =>
      rw [reaches_literal_iff, and_assoc, ← hsettle, hasName_iff, ← mem_results_ite_iff, below]
    | wild ks =>
      rw [mem_results_wildcards_iff (by simp) hsettle hlisted, reaches_wild_iff hd]
    | anywhere =>
      rw [mem_results_wildcards_iff (by simp) hsettle hlisted, reaches_anywhere_iff hd]
      refine and_congr_left' ⟨?_, fun ⟨n, hn, h⟩ => ⟨isDir_of_listed hd hn, .inr ⟨n, hn, h⟩⟩⟩
      rintro ⟨-, ⟨n, -, hstarts, -⟩ | h⟩
      · exact absurd hstarts (by simp [Part.startsWithDot])
      · exact h

theorem mem_hereOf_iff {c : Text} {parts : List Part} {w : Nat} (hroom : Room d c w)
    (hfuel : parts.length * fullRoom d + w ≤ fuel) :
    r ∈ hereOf g d fuel parts c ↔ Fitting d parts c r ∧ g.Allows d r := by
  cases parts with
  | nil => simp [hereOf, Fitting]
  | cons part rest =>
    cases hname : Path.fileName c with
    | none => simp [hereOf, Fitting, hname]
    | some name =>
      have hfitting : Fitting d (part :: rest) c r ↔
          part.fits name = true ∧ Reaches d rest c r := by simp [Fitting, hname]
      rw [hfitting, and_assoc]
      simp only [hereOf, hname]
      by_cases hfits : part.fits name = true
      · rw [if_neg (by simp [hfits]), and_iff_right hfits]
        cases rest with
        | nil =>
          rw [if_pos List.isEmpty_nil, mem_ite_onlyDirs_iff, reaches_nil_iff]
        | cons part' rest =>
          rw [if_neg (by simp)]
          rw [List.length_cons, Nat.succ_mul] at hfuel
          exact mem_results_below_iff hd hexpand (List.cons_ne_nil _ _) hroom (by omega)
      · simp [hfits]

end

/-- The fuel needed goes down with every level: a listed item has less room than its directory, and
    where a part is done there is room for all others. -/
theorem expands (hd : d.IsTree) : Expands g d fuel := by
  induction fuel with
  | zero => exact fun c parts r w _ hfuel => absurd hfuel (Nat.not_lt_zero _)
  | succ fuel ih =>
    intro c parts r w hroom hfuel
    rw [expandWithin_succ, Through]
    by_cases hhead : parts.head? = some .anywhere
    · have hlength : (parts.dropWhile (· == .anywhere)).length + 1 ≤ parts.length := by
        obtain ⟨tail, rfl⟩ := List.head?_eq_some_iff.1 hhead
        rw [List.dropWhile_cons_of_pos (by simp)]
        exact Nat.succ_le_succ (List.dropWhile_sublist _).length_le
      generalize parts.dropWhile (· == .anywhere) = rest at hlength ⊢
      have hdeeper : (rest.length + 1) * fullRoom d ≤ parts.length * fullRoom d :=
        Nat.mul_le_mul_right _ hlength
      have hhere : rest.length * fullRoom d ≤ (rest.length + 1) * fullRoom d :=
        Nat.mul_le_mul_right _ (Nat.le_succ _)
      rw [if_pos (by simpa using hhead), if_pos hhead, List.mem_append, or_and_right]
      refine or_congr ?_ ?_
      · by_cases hrest : rest = []
        · rw [if_pos (by simpa using hrest), if_pos hrest, List.mem_ite_nil_right,
            List.mem_singleton]
          exact ⟨fun h => ⟨h, fun _ => h.2 ▸ h.1⟩, And.left⟩
        · rw [if_neg (by simpa using hrest), if_neg hrest]
          exact mem_hereOf_iff hd ih hroom (by omega)
      · rw [List.mem_ite_nil_right, and_assoc]
        refine and_congr_right fun _ => mem_results_below_iff hd ih (List.cons_ne_nil _ _) hroom ?_
        rw [List.length_cons]
        omega
    · rw [if_neg (by simpa using hhead), if_neg hhead]
      exact mem_hereOf_iff hd ih hroom (by omega)

/-- CORRECT: the expansion gives the paths that the glob matches. -/
theorem mem_expand_iff (hd : d.IsTree) : r ∈ g.expand d ↔ g.Matches d r := by
  have hexpand : r ∈ g.expand d ↔ r ∈ results g d (g.expandFuel d)
      (below d g.parts (if g.absolute then ['/'] else ['.'])) := Iff.rfl
  rw [hexpand]
  by_cases hparts : g.parts = []
  · simp only [hparts, below, results, List.flatMap_nil, List.not_mem_nil, false_iff]
    exact fun h => h.parts hparts
  · have hfuel : g.parts.length * fullRoom d + fullRoom d ≤ g.expandFuel d := by
      rw [← Nat.succ_mul]
      exact Nat.mul_le_mul_right _ (Nat.le_succ _)
    rw [mem_results_below_iff hd (expands hd) hparts (room_fullRoom d _) hfuel]
    exact ⟨fun ⟨hreach, hallowed⟩ => ⟨hparts, hreach, hallowed⟩, fun h => ⟨h.reaches, h.allowed⟩⟩

end

end GherkinIndex.Glob
