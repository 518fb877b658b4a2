import Mathlib.Data.List.Induction
import GherkinIndex.Disk.Resolve
import GherkinIndex.Path.Basic

/-! Ways through a disk without links.

    Where no item is a link a way is a plain walk. A dot stays, two dots go up, a name goes down, each
    from a directory, and nothing but the last name may be missing. A path whose last component is a
    name leads to a place with that last name: what stands behind the name only stays there. What a
    single step does, and where following goes on, is said for all disks first.

        a / .. / b / .        / ──▶ a ──▶ / ──▶ b ──▶ b                          -/

namespace GherkinIndex.Disk

/-- No item is a link. -/
def Unlinked (d : Disk) : Prop := ∀ p t, d.item? p ≠ some (.link t)

/-- A walk from a place by some steps. -/
inductive Leads (d : Disk) : Place → List Step → Spot → Prop
  | here (p : Place) : Leads d p [] (.found p)
  | stay {p : Place} {ss : List Step} {s : Spot} (dir : d.item? p = some .dir)
      (rest : Leads d p ss s) : Leads d p (.stay :: ss) s
  | up {p : Place} {ss : List Step} {s : Spot} (dir : d.item? p = some .dir)
      (rest : Leads d p.dropLast ss s) : Leads d p (.up :: ss) s
  | name {p : Place} {n : Name} {i : Item} {ss : List Step} {s : Spot}
      (dir : d.item? p = some .dir) (there : d.item? (p ++ [n]) = some i)
      (rest : Leads d (p ++ [n]) ss s) : Leads d p (.name n :: ss) s
  | vacant {p : Place} {n : Name} (dir : d.item? p = some .dir)
      (free : d.item? (p ++ [n]) = none) : Leads d p [.name n] (.vacant p n)

/-- The file that a path leads to holds a text. -/
def Holds (d : Disk) (p content : Text) : Prop :=
  ∃ q, d.place p = .ok q ∧ d.item? q = some (.file (String.ofList content).toUTF8)

/-! ### Reading -/

theorem fromUTF8?_toUTF8 (s : String) : String.fromUTF8? s.toUTF8 = some s := by
  unfold String.fromUTF8?
  rw [String.toUTF8_eq_toByteArray, dif_pos s.isValidUTF8]
  rfl

theorem readText_of_holds {d : Disk} {p content : Text} (h : d.Holds p content) :
    d.readText p = .ok content := by
  obtain ⟨q, hplace, hitem⟩ := h
  simp only [readText, hplace, hitem, fromUTF8?_toUTF8, String.toList_ofList]

/-! ### One step -/

theorem isDirAt_iff {d : Disk} {p : Place} : d.isDirAt p = true ↔ d.item? p = some .dir := by
  rw [isDirAt]
  cases d.item? p with
  | none => simp
  | some i => cases i <;> simp

section
variable {d : Disk} {last : Bool} {p : Place} {n : Name} {ss : List Step}

theorem stroll_of_not_dir (hdir : d.item? p ≠ some .dir) (s : Step) :
    stroll d last p (s :: ss) = .fault .notDirectory := by
  simp [stroll, isDirAt_iff, hdir]

variable (dir : d.item? p = some .dir)
include dir

theorem stroll_stay : stroll d last p (.stay :: ss) = stroll d last p ss := by
  simp [stroll, isDirAt_iff.2 dir]

theorem stroll_up : stroll d last p (.up :: ss) = stroll d last p.dropLast ss := by
  simp [stroll, isDirAt_iff.2 dir]

theorem stroll_name {i : Item} (there : d.item? (p ++ [n]) = some i) (noLink : ∀ t, i ≠ .link t) :
    stroll d last p (.name n :: ss) = stroll d last (p ++ [n]) ss := by
  cases i with
  | link t => exact absurd rfl (noLink t)
  | file bytes => simp [stroll, isDirAt_iff.2 dir, there]
  | dir => simp [stroll, isDirAt_iff.2 dir, there]

theorem stroll_link {t : Text} (there : d.item? (p ++ [n]) = some (.link t)) :
    stroll d true p (.name n :: ss) = .link p t ss := by
  simp [stroll, isDirAt_iff.2 dir, there]

theorem stroll_free (free : d.item? (p ++ [n]) = none) :
    stroll d last p (.name n :: ss) = if ss.isEmpty then .vacant p n else .fault .notFound := by
  simp [stroll, isDirAt_iff.2 dir, free]

end

/-! ### Following -/

/-- Where a way that meets no link ends. -/
def Halt.spot? : Halt → Option Spot
  | .at p => some (.found p)
  | .vacant dir name => some (.vacant dir name)
  | _ => none

theorem Halt.spot?_eq_found_iff {h : Halt} {q : Place} : h.spot? = some (.found q) ↔ h = .at q := by
  cases h <;> simp [spot?]

/-- A way ends where the stroll does, or it goes on through the link that the stroll ends at. -/
theorem follow_eq_ok_iff_stroll {d : Disk} {last : Bool} {hops : Nat} {p : Place} {ss : List Step}
    {s : Spot} : d.follow last hops p ss = .ok s ↔
      (stroll d last p ss).spot? = some s ∨
      ∃ dir t rest k, stroll d last p ss = .link dir t rest ∧ hops = k + 1 ∧ t ≠ [] ∧
        d.follow last k (start dir t) (steps t ++ rest) = .ok s := by
  conv_lhs => unfold follow
  cases stroll d last p ss with
  | «at» q => simp [Halt.spot?]
  | vacant dir name => simp [Halt.spot?]
  | fault f => simp [Halt.spot?]
  | link dir t rest =>
    cases hops with
    | zero => simp [Halt.spot?]
    | succ k => by_cases ht : t = [] <;> simp [Halt.spot?, ht]

theorem place_eq_ok_iff_locate {d : Disk} {path : Text} {q : Place} :
    d.place path = .ok q ↔ d.locate true path = .ok (.found q) := by
  rw [place]
  cases d.locate true path with
  | error f => simp
  | ok spot => cases spot <;> simp

/-! ### Disks without links -/

theorem unlinked_of_items {d : Disk} (h : ∀ item ∈ d.items, ∀ t, item.2 ≠ .link t) :
    d.Unlinked := by
  intro p t hlink
  by_cases hroot : p.isEmpty = true
  · simp [item?, hroot] at hlink
  · rw [item?, if_neg hroot] at hlink
    obtain ⟨before, after, hitems, -⟩ := List.lookup_eq_some_iff.1 hlink
    exact h (p, .link t) (by simp [hitems]) t rfl

section
variable {d : Disk} (hd : d.Unlinked)
include hd

theorem Unlinked.ne_link {p : Place} {i : Item} (h : d.item? p = some i) (t : Text) :
    i ≠ .link t := by
  rintro rfl
  exact hd p t h

theorem stroll_ne_link (last : Bool) (p : Place) (ss : List Step) (dir : Place) (target : Text)
    (rest : List Step) : stroll d last p ss ≠ .link dir target rest := by
  induction ss generalizing p with
  | nil => simp [stroll]
  | cons s ss ih =>
    by_cases hdir : d.item? p = some .dir
    · cases s with
      | stay => rw [stroll_stay hdir]; exact ih p
      | up => rw [stroll_up hdir]; exact ih p.dropLast
      | name n =>
        cases hitem : d.item? (p ++ [n]) with
        | none => rw [stroll_free hdir hitem]; split_ifs <;> simp
        | some i => rw [stroll_name hdir hitem (hd.ne_link hitem)]; exact ih (p ++ [n])
    · simp [stroll_of_not_dir hdir]

theorem spot?_stroll_iff {last : Bool} {p : Place} {ss : List Step} {s : Spot} :
    (stroll d last p ss).spot? = some s ↔ Leads d p ss s := by
  constructor
  · intro h
    induction ss generalizing p with
    | nil =>
      simp only [stroll, Halt.spot?, Option.some.injEq] at h
      exact h ▸ .here p
    | cons step ss ih =>
      by_cases hdir : d.item? p = some .dir
      · cases step with
        | stay => exact .stay hdir (ih (stroll_stay hdir ▸ h))
        | up => exact .up hdir (ih (stroll_up hdir ▸ h))
        | name n =>
          cases hitem : d.item? (p ++ [n]) with
          | some i =>
            rw [stroll_name hdir hitem (hd.ne_link hitem)] at h
            exact .name hdir hitem (ih h)
          | none =>
            rw [stroll_free hdir hitem] at h
            cases ss with
            | nil =>
              obtain rfl : Spot.vacant p n = s := by simpa [Halt.spot?] using h
              exact .vacant hdir hitem
            | cons step' ss => simp [Halt.spot?] at h
      · simp [stroll_of_not_dir hdir, Halt.spot?] at h
  · intro h
    induction h with
    | here p => rfl
    | stay dir rest ih => rwa [stroll_stay dir]
    | up dir rest ih => rwa [stroll_up dir]
    | name dir there rest ih => rwa [stroll_name dir there (hd.ne_link there)]
    | vacant dir free => simp [stroll_free dir free, Halt.spot?]

theorem follow_eq_ok_iff {last : Bool} {hops : Nat} {p : Place} {ss : List Step} {s : Spot} :
    follow d last hops p ss = .ok s ↔ Leads d p ss s := by
  rw [follow_eq_ok_iff_stroll, spot?_stroll_iff hd, or_iff_left]
  rintro ⟨dir, t, rest, k, hlink, -⟩
  exact stroll_ne_link hd last p ss dir t rest hlink

theorem locate_eq_ok_iff {last : Bool} {p : Text} {s : Spot} :
    d.locate last p = .ok s ↔
      p ≠ [] ∧ '\x00' ∉ p ∧ Leads d (start d.cwd p) (steps p) s := by
  unfold locate
  by_cases hempty : p = []
  · simp [hempty]
  · by_cases hnul : '\x00' ∈ p
    · simp [hempty, hnul]
    · simp [hempty, hnul, follow_eq_ok_iff hd]

theorem place_eq_ok_iff {p : Text} {q : Place} :
    d.place p = .ok q ↔
      p ≠ [] ∧ '\x00' ∉ p ∧ Leads d (start d.cwd p) (steps p) (.found q) := by
  rw [place_eq_ok_iff_locate, locate_eq_ok_iff hd]

end

/-- A way is made up of a way to each place on it and one from there. -/
theorem Leads.split {d : Disk} {p : Place} {ss : List Step} {t : Step} {ts : List Step} {s : Spot}
    (h : Leads d p (ss ++ t :: ts) s) :
    ∃ q, Leads d p ss (.found q) ∧ Leads d q (t :: ts) s := by
  induction ss generalizing p with
  | nil => exact ⟨p, .here p, h⟩
  | cons step ss ih =>
    rw [List.cons_append] at h
    generalize hrest : ss ++ t :: ts = rest at h
    cases h with
    | stay dir h => obtain ⟨q, hto, hfrom⟩ := ih (hrest ▸ h); exact ⟨q, .stay dir hto, hfrom⟩
    | up dir h => obtain ⟨q, hto, hfrom⟩ := ih (hrest ▸ h); exact ⟨q, .up dir hto, hfrom⟩
    | name dir there h =>
      obtain ⟨q, hto, hfrom⟩ := ih (hrest ▸ h)
      exact ⟨q, .name dir there hto, hfrom⟩
    | vacant dir free => simp at hrest

theorem Leads.eq_of_stays {d : Disk} {p q : Place} {ss : List Step}
    (h : Leads d p ss (.found q)) (hstay : ∀ s ∈ ss, s = .stay) : q = p := by
  induction ss with
  | nil => cases h; rfl
  | cons s ss ih =>
    obtain rfl := hstay s List.mem_cons_self
    cases h with
    | stay _ h => exact ih h fun s hs => hstay s (List.mem_cons_of_mem _ hs)

/-! ### The last name -/

theorem map_step_of_getLast? {pieces : List Text} {n : Name}
    (h : (pieces.filterMap Path.component?).getLast? = some (.name n)) :
    ∃ pre idle, pieces.map step = pre ++ .name n :: idle ∧ ∀ s ∈ idle, s = .stay := by
  induction pieces using List.reverseRecOn with
  | nil => simp at h
  | append_singleton pieces piece ih =>
    rw [List.map_append, List.map_singleton]
    by_cases hidle : piece.isEmpty || piece == ['.']
    · obtain ⟨pre, idle, hsteps, hstay⟩ := ih (by simpa [Path.component?, hidle] using h)
      refine ⟨pre, idle ++ [.stay], ?_, ?_⟩
      · rw [hsteps, step, if_pos hidle, List.append_assoc, List.cons_append]
      · simpa [or_imp, forall_and] using hstay
    · refine ⟨pieces.map step, [], ?_, by simp⟩
      by_cases hup : piece == ['.', '.']
      · simp [Path.component?, hidle, hup] at h
      · simpa [Path.component?, step, hidle, hup] using h

theorem steps_of_fileName {p : Text} {n : Name} (h : Path.fileName p = some n) :
    ∃ pre idle, steps p = pre ++ .name n :: idle ∧ ∀ s ∈ idle, s = .stay := by
  refine map_step_of_getLast? ?_
  have hlast : (Path.components p).getLast? = some (.name n) := by
    rw [Path.fileName] at h
    cases hlast : (Path.components p).getLast? with
    | none => simp [hlast] at h
    | some c => cases c <;> simp_all
  obtain ⟨first, pieces, hpieces⟩ : ∃ first pieces, p.splitOn '/' = first :: pieces :=
    List.exists_cons_of_ne_nil (List.splitOn_ne_nil '/' p)
  simp only [Path.components, hpieces] at hlast
  rw [hpieces, show first :: pieces = [first] ++ pieces from rfl, List.filterMap_append]
  simp only [List.getLast?_append] at hlast ⊢
  cases hrest : (pieces.filterMap Path.component?).getLast? with
  | some c => simpa [hrest] using hlast
  | none =>
    -- only a name at the very start is left
    rw [hrest, Option.none_or] at hlast
    rw [Option.none_or]
    by_cases habs : Path.isAbsolute p = true
    · simp [habs] at hlast
    by_cases hhere : first = ['.']
    · simp [habs, hhere] at hlast
    · cases hfirst : Path.component? first <;> simp_all

/-- What a path with a file name leads to bears that name. -/
theorem getLast?_of_place {d : Disk} (hd : d.Unlinked) {p : Text} {n : Name} {q : Place}
    (hname : Path.fileName p = some n) (hplace : d.place p = .ok q) : q.getLast? = some n := by
  obtain ⟨-, -, hleads⟩ := (place_eq_ok_iff hd).1 hplace
  obtain ⟨pre, idle, hsteps, hstay⟩ := steps_of_fileName hname
  obtain ⟨r, -, hlast⟩ := (hsteps ▸ hleads).split
  cases hlast with
  | name _ _ hidle => rw [hidle.eq_of_stays hstay, List.getLast?_concat]

end GherkinIndex.Disk
