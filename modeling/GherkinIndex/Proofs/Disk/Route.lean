import Mathlib.Data.List.Basic
import GherkinIndex.Proofs.Disk.Way
import GherkinIndex.Proofs.Path.Join

/-! Ways through a disk with links.

    A route is a walk that takes a link for the steps of its target, and counts the links. A path
    leads to a place if there is a route of at most forty links, so a route for some steps and one for
    further steps make a route for all of them, as long as there are not too many links on both.

        a / l / b        l → ../c         a ──▶ a/l ⇢ a / .. / c ──▶ c/b         one link -/

namespace GherkinIndex

namespace Disk

/-- A file tree: what it holds bears proper names and lies in directories. -/
structure IsTree (d : Disk) : Prop where
  named : ∀ e ∈ d.items, ∀ n ∈ e.1, Name.Proper n
  inside : ∀ e ∈ d.items, d.item? e.1.dropLast = some .dir

instance (d : Disk) : Decidable d.IsTree :=
  decidable_of_iff ((∀ e ∈ d.items, ∀ n ∈ e.1, Name.Proper n) ∧
      ∀ e ∈ d.items, d.isDirAt e.1.dropLast = true)
    ⟨fun ⟨named, inside⟩ => ⟨named, fun e he => isDirAt_iff.1 (inside e he)⟩,
      fun ⟨named, inside⟩ => ⟨named, fun e he => isDirAt_iff.2 (inside e he)⟩⟩

theorem mem_items_of_item? {d : Disk} {p : Place} {i : Item} (h : d.item? p = some i)
    (hp : p ≠ []) : (p, i) ∈ d.items := by
  rw [item?, if_neg (by simpa using hp)] at h
  obtain ⟨before, after, hitems, -⟩ := List.lookup_eq_some_iff.1 h
  simp [hitems]

theorem IsTree.proper {d : Disk} (hd : d.IsTree) {p : Place} {n : Name} {i : Item}
    (h : d.item? (p ++ [n]) = some i) : Name.Proper n :=
  hd.named _ (mem_items_of_item? h (by simp)) n (by simp)

theorem IsTree.dir_dropLast {d : Disk} (hd : d.IsTree) {p : Place} {i : Item}
    (h : d.item? p = some i) : d.item? p.dropLast = some .dir := by
  by_cases hp : p = []
  · simp [hp, item?]
  · exact hd.inside _ (mem_items_of_item? h hp)

/-- A walk from a place by some steps that passes a number of links. -/
inductive Route (d : Disk) : Place → List Step → Nat → Place → Prop
  | here (p : Place) : Route d p [] 0 p
  | stay {p q : Place} {ss : List Step} {k : Nat} (dir : d.item? p = some .dir)
      (rest : Route d p ss k q) : Route d p (.stay :: ss) k q
  | up {p q : Place} {ss : List Step} {k : Nat} (dir : d.item? p = some .dir)
      (rest : Route d p.dropLast ss k q) : Route d p (.up :: ss) k q
  | name {p q : Place} {n : Name} {i : Item} {ss : List Step} {k : Nat}
      (dir : d.item? p = some .dir) (there : d.item? (p ++ [n]) = some i)
      (noLink : ∀ t, i ≠ .link t) (rest : Route d (p ++ [n]) ss k q) :
      Route d p (.name n :: ss) k q
  | link {p q : Place} {n : Name} {t : Text} {ss : List Step} {k : Nat}
      (dir : d.item? p = some .dir) (there : d.item? (p ++ [n]) = some (.link t)) (target : t ≠ [])
      (rest : Route d (start p t) (steps t ++ ss) k q) : Route d p (.name n :: ss) (k + 1) q

/-- A path leads to a place by way of a number of links. -/
structure LeadsTo (d : Disk) (path : Text) (k : Nat) (p : Place) : Prop where
  notEmpty : path ≠ []
  noNul : '\x00' ∉ path
  few : k ≤ maxLinks
  route : Route d (start d.cwd path) (steps path) k p

/-! ### Following -/

theorem item_cases (d : Disk) (p : Place) : d.item? p = none ∨
    (∃ t, d.item? p = some (.link t)) ∨ ∃ i, d.item? p = some i ∧ ∀ t, i ≠ .link t := by
  cases d.item? p with
  | none => exact .inl rfl
  | some i => cases i with
    | link t => exact .inr (.inl ⟨t, rfl⟩)
    | file bytes => exact .inr (.inr ⟨_, rfl, by simp⟩)
    | dir => exact .inr (.inr ⟨_, rfl, by simp⟩)

section
variable {d : Disk} {p q : Place} {ss : List Step}

/-- A stroll to its end is a route, and one up to a link is the start of a route through it. -/
theorem route_of_stroll : (∀ q, stroll d true p ss = .at q → Route d p ss 0 q) ∧
    ∀ dir t rest, stroll d true p ss = .link dir t rest → t ≠ [] → ∀ k q,
      Route d (start dir t) (steps t ++ rest) k q → Route d p ss (k + 1) q := by
  induction ss generalizing p with
  | nil => simpa [stroll] using Route.here p
  | cons s ss ih =>
    by_cases hdir : d.item? p = some .dir
    · cases s with
      | stay =>
        rw [stroll_stay hdir]
        exact ⟨fun q h => .stay hdir (ih.1 q h),
          fun dir t rest h ht k q hr => .stay hdir (ih.2 dir t rest h ht k q hr)⟩
      | up =>
        rw [stroll_up hdir]
        exact ⟨fun q h => .up hdir (ih.1 q h),
          fun dir t rest h ht k q hr => .up hdir (ih.2 dir t rest h ht k q hr)⟩
      | name n =>
        rcases item_cases d (p ++ [n]) with hfree | ⟨target, hlink⟩ | ⟨i, hi, hnot⟩
        · rw [stroll_free hdir hfree]
          split_ifs <;> simp
        · rw [stroll_link hdir hlink]
          refine ⟨by simp, fun dir t rest h ht k q hr => ?_⟩
          obtain ⟨rfl, rfl, rfl⟩ : p = dir ∧ target = t ∧ ss = rest := by simpa using h
          exact .link hdir hlink ht hr
        · rw [stroll_name hdir hi hnot]
          exact ⟨fun q h => .name hdir hi hnot (ih.1 q h),
            fun dir t rest h ht k q hr => .name hdir hi hnot (ih.2 dir t rest h ht k q hr)⟩
    · simp [stroll_of_not_dir hdir]

theorem exists_route_of_follow {hops : Nat} (h : d.follow true hops p ss = .ok (.found q)) :
    ∃ k ≤ hops, Route d p ss k q := by
  induction hops generalizing p ss with
  | zero =>
    rcases follow_eq_ok_iff_stroll.1 h with hend | ⟨dir, t, rest, m, -, hm, -⟩
    · exact ⟨0, Nat.le_refl 0, route_of_stroll.1 q (Halt.spot?_eq_found_iff.1 hend)⟩
    · exact absurd hm (Nat.succ_ne_zero m).symm
  | succ hops ih =>
    rcases follow_eq_ok_iff_stroll.1 h with hend | ⟨dir, t, rest, m, hlink, hm, ht, hrest⟩
    · exact ⟨0, Nat.zero_le _, route_of_stroll.1 q (Halt.spot?_eq_found_iff.1 hend)⟩
    · obtain rfl := Nat.succ.inj hm
      obtain ⟨k, hk, hr⟩ := ih hrest
      exact ⟨k + 1, Nat.succ_le_succ hk, route_of_stroll.2 dir t rest hlink ht k q hr⟩

theorem follow_of_route {k hops : Nat} (h : Route d p ss k q) (hk : k ≤ hops) :
    d.follow true hops p ss = .ok (.found q) := by
  induction h generalizing hops with
  | here p => exact follow_eq_ok_iff_stroll.2 (.inl rfl)
  | stay dir _ ih =>
    rw [follow_eq_ok_iff_stroll, stroll_stay dir, ← follow_eq_ok_iff_stroll]
    exact ih hk
  | up dir _ ih =>
    rw [follow_eq_ok_iff_stroll, stroll_up dir, ← follow_eq_ok_iff_stroll]
    exact ih hk
  | name dir there noLink _ ih =>
    rw [follow_eq_ok_iff_stroll, stroll_name dir there noLink, ← follow_eq_ok_iff_stroll]
    exact ih hk
  | @link p q n t ss k dir there target _ ih =>
    obtain ⟨more, rfl⟩ := Nat.exists_eq_add_of_le' hk
    exact follow_eq_ok_iff_stroll.2
      (.inr ⟨p, t, ss, more + k, stroll_link dir there, rfl, target, ih (Nat.le_add_left k more)⟩)

end

theorem place_eq_ok_iff_leadsTo {d : Disk} {path : Text} {p : Place} :
    d.place path = .ok p ↔ ∃ k, d.LeadsTo path k p := by
  rw [place_eq_ok_iff_locate, locate]
  by_cases hempty : path = []
  · simpa [hempty] using fun k (h : d.LeadsTo [] k p) => h.notEmpty rfl
  by_cases hnul : '\x00' ∈ path
  · simpa [hempty, hnul] using fun k (h : d.LeadsTo path k p) => h.noNul hnul
  simp only [List.isEmpty_iff, hempty, List.contains_eq_mem, hnul, decide_false, if_false,
    Bool.false_eq_true]
  constructor
  · intro h
    obtain ⟨k, hk, hroute⟩ := exists_route_of_follow h
    exact ⟨k, hempty, hnul, hk, hroute⟩
  · rintro ⟨k, h⟩
    exact follow_of_route h.route h.few

/-! ### Putting routes together -/

section
variable {d : Disk} {p q : Place} {ss ts : List Step} {k : Nat}

theorem Route.dir_of_cons {s : Step} (h : Route d p (s :: ss) k q) : d.item? p = some .dir := by
  cases h <;> assumption

theorem Route.append {m : Place} {j : Nat} (h : Route d p ss k m) (h' : Route d m ts j q) :
    Route d p (ss ++ ts) (k + j) q := by
  induction h with
  | here p => simpa using h'
  | stay dir _ ih => exact .stay dir (ih h')
  | up dir _ ih => exact .up dir (ih h')
  | name dir there noLink _ ih => exact .name dir there noLink (ih h')
  | link dir there target _ ih =>
    rw [Nat.add_right_comm]
    exact .link dir there target (by simpa using ih h')

theorem Route.split (h : Route d p (ss ++ ts) k q) :
    ∃ i m j, Route d p ss i m ∧ Route d m ts j q ∧ k = i + j := by
  generalize hall : ss ++ ts = all at h
  induction h generalizing ss with
  | here p =>
    obtain ⟨rfl, rfl⟩ := List.append_eq_nil_iff.1 hall
    exact ⟨0, p, 0, .here p, .here p, rfl⟩
  | stay dir rest ih =>
    rcases List.append_eq_cons_iff.1 hall with ⟨rfl, rfl⟩ | ⟨ss, rfl, rfl⟩
    · exact ⟨0, _, _, .here _, .stay dir rest, by simp⟩
    · obtain ⟨i, m, j, hi, hj, hk⟩ := ih rfl
      exact ⟨i, m, j, .stay dir hi, hj, hk⟩
  | up dir rest ih =>
    rcases List.append_eq_cons_iff.1 hall with ⟨rfl, rfl⟩ | ⟨ss, rfl, rfl⟩
    · exact ⟨0, _, _, .here _, .up dir rest, by simp⟩
    · obtain ⟨i, m, j, hi, hj, hk⟩ := ih rfl
      exact ⟨i, m, j, .up dir hi, hj, hk⟩
  | name dir there noLink rest ih =>
    rcases List.append_eq_cons_iff.1 hall with ⟨rfl, rfl⟩ | ⟨ss, rfl, rfl⟩
    · exact ⟨0, _, _, .here _, .name dir there noLink rest, by simp⟩
    · obtain ⟨i, m, j, hi, hj, hk⟩ := ih rfl
      exact ⟨i, m, j, .name dir there noLink hi, hj, hk⟩
  | link dir there target rest ih =>
    rcases List.append_eq_cons_iff.1 hall with ⟨rfl, rfl⟩ | ⟨ss, rfl, rfl⟩
    · exact ⟨0, _, _, .here _, .link dir there target rest, by simp⟩
    · obtain ⟨i, m, j, hi, hj, hk⟩ := ih (List.append_assoc ..)
      exact ⟨i + 1, m, j, .link dir there target hi, hj, by omega⟩

theorem Route.unique {j : Nat} {r : Place} (h : Route d p ss k q) (h' : Route d p ss j r) :
    k = j ∧ q = r := by
  induction h generalizing j r with
  | here p => cases h'; exact ⟨rfl, rfl⟩
  | stay _ _ ih => cases h' with | stay _ h' => exact ih h'
  | up _ _ ih => cases h' with | up _ h' => exact ih h'
  | name _ there noLink _ ih =>
    cases h' with
    | name _ _ _ h' => exact ih h'
    | link _ there' => exact absurd (Option.some.inj (there.symm.trans there')) (noLink _)
  | link _ there _ _ ih =>
    cases h' with
    | name _ there' noLink => exact absurd (Option.some.inj (there'.symm.trans there)) (noLink _)
    | link _ there' _ h' =>
      obtain rfl := Item.link.inj (Option.some.inj (there.symm.trans there'))
      obtain ⟨rfl, rfl⟩ := ih h'
      exact ⟨rfl, rfl⟩

theorem Route.eq_of_stays (h : Route d p ss k q) (hstay : ∀ s ∈ ss, s = .stay) :
    k = 0 ∧ q = p := by
  induction h with
  | here p => exact ⟨rfl, rfl⟩
  | stay _ _ ih => exact ih fun s hs => hstay s (List.mem_cons_of_mem _ hs)
  | up | name | link => simp at hstay

/-- In a tree a route from an item that is no link ends at one. -/
theorem Route.lands (hd : d.IsTree) (h : Route d p ss k q)
    (hp : ∃ i, d.item? p = some i ∧ ∀ t, i ≠ .link t) :
    ∃ i, d.item? q = some i ∧ ∀ t, i ≠ .link t := by
  have hdir : ∀ m, d.item? m = some .dir → ∃ i, d.item? m = some i ∧ ∀ t, i ≠ .link t :=
    fun m hm => ⟨.dir, hm, by simp⟩
  induction h with
  | here p => exact hp
  | stay _ _ ih => exact ih hp
  | up dir _ ih => exact ih (hdir _ (hd.dir_dropLast dir))
  | name _ there noLink _ ih => exact ih ⟨_, there, noLink⟩
  | @link p _ _ t _ _ dir _ _ _ ih =>
    refine ih (hdir _ ?_)
    by_cases habs : Path.isAbsolute t = true
    · simp [start, habs, item?]
    · rwa [start, if_neg habs]

end

/-! ### Below a directory -/

theorem step_name {n : Name} (hn : n.Proper) : step n = .name n := by
  simp [step, hn.notEmpty, hn.notHere, hn.notUp]

section
variable {d : Disk} {path : Text} {p q : Place} {k : Nat}

theorem LeadsTo.place (h : d.LeadsTo path k p) : d.place path = .ok p :=
  place_eq_ok_iff_leadsTo.2 ⟨k, h⟩

theorem isDir_iff : d.isDir path = true ↔ ∃ k p, d.LeadsTo path k p ∧ d.item? p = some .dir := by
  constructor
  · intro h
    cases hplace : d.place path with
    | error f => simp [isDir, hplace] at h
    | ok p =>
      rw [isDir, hplace] at h
      obtain ⟨k, hleads⟩ := place_eq_ok_iff_leadsTo.1 hplace
      exact ⟨k, p, hleads, isDirAt_iff.1 h⟩
  · rintro ⟨k, p, hleads, hdir⟩
    simp [isDir, hleads.place, isDirAt_iff.2 hdir]

theorem isFile_eq_false_of_isDir (h : d.isDir path = true) : d.isFile path = false := by
  obtain ⟨k, p, hleads, hp⟩ := isDir_iff.1 h
  simp [isFile, hleads.place, isFileAt, hp]

theorem LeadsTo.lands (hd : d.IsTree) (h : d.LeadsTo path k p) :
    ∃ i, d.item? p = some i ∧ ∀ t, i ≠ .link t := by
  obtain ⟨piece, pieces, hpieces⟩ : ∃ piece pieces, path.splitOn '/' = piece :: pieces :=
    List.exists_cons_of_ne_nil (List.splitOn_ne_nil '/' path)
  have hsteps : steps path = step piece :: pieces.map step := by rw [steps, hpieces, List.map_cons]
  exact h.route.lands hd ⟨.dir, (hsteps ▸ h.route).dir_of_cons, by simp⟩

/-- A name behind the path of a directory is one step more, and further links if the name is one. -/
theorem leadsTo_join_iff {n : Name} (hn : n.Proper) (h : d.LeadsTo path k p) {k' : Nat} :
    d.LeadsTo (Path.join path n) k' q ↔
      ∃ j, Route d p [.name n] j q ∧ k' = k + j ∧ k' ≤ maxLinks := by
  obtain ⟨first, pieces, hjoin, hsplit⟩ := Path.splitOn_join h.notEmpty hn
  have hsteps : steps (Path.join path n) = (first :: pieces).map step ++ [.name n] := by
    rw [steps, hjoin, ← List.cons_append, List.map_append, List.map_singleton, step_name hn]
  have hstart : start d.cwd (Path.join path n) = start d.cwd path := by
    rw [start, start, Path.isAbsolute_join h.notEmpty hn]
  have hnul : '\x00' ∉ Path.join path n := by
    obtain ⟨stem, hjoin, hstem⟩ := Path.join_eq h.notEmpty hn
    have := h.noNul
    rcases hstem with rfl | rfl <;> simp_all [hn.noNul]
  -- the steps before the name lead to the directory
  have hto : Route d (start d.cwd path) ((first :: pieces).map step) k p := by
    rcases hsplit with hsplit | hsplit
    · have hroute := h.route
      rwa [steps, hsplit] at hroute
    · have hroute := h.route
      rw [steps, hsplit, ← List.cons_append, List.map_append] at hroute
      obtain ⟨i, m, j, hi, hj, rfl⟩ := hroute.split
      cases hj with
      | stay _ hj => cases hj; exact hi
  constructor
  · rintro ⟨-, -, hfew, hroute⟩
    rw [hstart, hsteps] at hroute
    obtain ⟨i, m, j, hi, hj, rfl⟩ := hroute.split
    obtain ⟨rfl, rfl⟩ := hto.unique hi
    exact ⟨j, hj, rfl, hfew⟩
  · rintro ⟨j, hj, rfl, hfew⟩
    refine ⟨Path.join_ne_nil h.notEmpty hn, hnul, hfew, ?_⟩
    rw [hstart, hsteps]
    exact hto.append hj

theorem leadsTo_join_of_not_link {n : Name} {i : Item} (hn : n.Proper) (h : d.LeadsTo path k p)
    (hdir : d.item? p = some .dir) (there : d.item? (p ++ [n]) = some i)
    (noLink : ∀ t, i ≠ .link t) : d.LeadsTo (Path.join path n) k (p ++ [n]) :=
  (leadsTo_join_iff hn h).2 ⟨0, .name hdir there noLink (.here _), rfl, h.few⟩

end

end Disk
end GherkinIndex
