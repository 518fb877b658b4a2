import Mathlib.Logic.Relation
import GherkinIndex.Disk.Write
import GherkinIndex.Proofs.Disk.Way

/-! What a change to a disk leaves as it was.

    A disk grows: items are added and files are written over, nothing vanishes and a directory stays
    one. So a path that led to a place still leads there. Directories are made only where nothing
    was, each where the path, or one above it, leads to from then on; a file changes the place that
    its path leads to.

        make out/new/deep     out ✓    out/new ✗ → dir    out/new/deep ✗ → dir          -/

namespace GherkinIndex

/-- What is left of a path without its last component, without the last two and so on. -/
def Path.IsAbove (above p : Text) : Prop :=
  Relation.TransGen (fun x y => Path.parent x = some y) p above

theorem Path.isAbove_of_parent {above home p : Text} (hparent : Path.parent p = some home)
    (h : above = home ∨ Path.IsAbove above home) : Path.IsAbove above p := by
  rcases h with rfl | h
  · exact .single hparent
  · exact .head hparent h

namespace Disk

/-! ### Items -/

theorem lookup_map_put {items : List (Place × Item)} {p q : Place} {i : Item} :
    (items.map fun (r, j) => if r = p then (r, i) else (r, j)).lookup q =
      if q = p ∧ items.any (·.1 == p) then some i else items.lookup q := by
  induction items with
  | nil => simp
  | cons item items ih =>
    obtain ⟨r, j⟩ := item
    by_cases hq : q = r
    · subst hq
      by_cases hp : q = p <;> simp [hp]
    · have hne : (q == r) = false := beq_false_of_ne hq
      by_cases hp : r = p
      · subst hp
        simp [List.lookup_cons, hq, hne, ih]
      · have hne' : (r == p) = false := beq_false_of_ne hp
        simp only [List.map_cons, List.any_cons, List.lookup_cons, if_neg hp, hne, hne', ih,
          Bool.false_or]

theorem item?_of_ne_nil {d : Disk} {q : Place} (hq : q ≠ []) : d.item? q = d.items.lookup q :=
  if_neg (by simpa using hq)

theorem item?_put {d : Disk} {p q : Place} {i : Item} (hp : p ≠ []) :
    (d.put p i).item? q = if q = p then some i else d.item? q := by
  by_cases hroot : q = []
  · simp [item?, hroot, hp.symm]
  · rw [item?_of_ne_nil hroot, item?_of_ne_nil hroot]
    by_cases hany : d.items.any (·.1 == p) = true
    · rw [put, if_pos hany, lookup_map_put]
      simp only [hany, and_true]
    · simp only [put, if_neg hany]
      by_cases hq : q = p
      · have hnone : d.items.lookup p = none := by
          rw [List.lookup_eq_none_iff]
          intro item hitem
          simpa using fun h : p = item.1 => hany (List.any_eq_true.2 ⟨item, hitem, by simp [h]⟩)
        simp [hq, List.lookup_append, hnone]
      · have hne : (q == p) = false := beq_false_of_ne hq
        simp [List.lookup_append, List.lookup_cons, hq, hne]

/-- Only the place where an item is put may change. -/
theorem eq_of_item?_put_ne {d : Disk} {p q : Place} {i : Item} (hp : p ≠ [])
    (h : (d.put p i).item? q ≠ d.item? q) : q = p := by
  by_contra hqp
  rw [item?_put hp, if_neg hqp] at h
  exact h rfl

@[simp] theorem cwd_put {d : Disk} {p : Place} {i : Item} : (d.put p i).cwd = d.cwd := by
  by_cases hany : d.items.any (·.1 == p) = true
  · rw [put, if_pos hany]
  · rw [put, if_neg hany]

/-! ### Growing -/

/-- Nothing vanishes, a directory stays one, and no link appears on a disk without links. -/
structure Grows (d d' : Disk) : Prop where
  cwd : d'.cwd = d.cwd
  dir : ∀ p, d.item? p = some .dir → d'.item? p = some .dir
  there : ∀ p, d'.item? p = none → d.item? p = none
  unlinked : d.Unlinked → d'.Unlinked

theorem Grows.refl (d : Disk) : d.Grows d := ⟨rfl, fun _ h => h, fun _ h => h, id⟩

theorem Grows.trans {d₁ d₂ d₃ : Disk} (h : d₁.Grows d₂) (h' : d₂.Grows d₃) : d₁.Grows d₃ where
  cwd := h'.cwd.trans h.cwd
  dir p hp := h'.dir p (h.dir p hp)
  there p hp := h.there p (h'.there p hp)
  unlinked hd := h'.unlinked (h.unlinked hd)

theorem Grows.put {d : Disk} {p : Place} {i : Item} (hp : p ≠ [])
    (hkeep : d.item? p = some .dir → i = .dir) (hlink : ∀ t, i ≠ .link t) :
    d.Grows (d.put p i) where
  cwd := cwd_put
  dir q hq := by
    by_cases hqp : q = p
    · rw [item?_put hp, if_pos hqp, hkeep (hqp ▸ hq)]
    · rwa [item?_put hp, if_neg hqp]
  there q hq := by
    by_cases hqp : q = p
    · simp [item?_put hp, hqp] at hq
    · rwa [item?_put hp, if_neg hqp] at hq
  unlinked hd q t := by
    by_cases hqp : q = p
    · simpa [item?_put hp, hqp] using hlink t
    · rw [item?_put hp, if_neg hqp]
      exact hd q t

section
variable {d d' : Disk} (hg : d.Grows d')
include hg

theorem Grows.exists_item {p : Place} {i : Item} (h : d.item? p = some i) :
    ∃ j, d'.item? p = some j := by
  cases hp : d'.item? p with
  | none => simp [hg.there p hp] at h
  | some j => exact ⟨j, rfl⟩

theorem Leads.grows {p q : Place} {ss : List Step} (h : Leads d p ss (.found q)) :
    Leads d' p ss (.found q) := by
  generalize hs : Spot.found q = s at h
  induction h with
  | here p => exact .here p
  | stay dir _ ih => exact .stay (hg.dir _ dir) (ih hs)
  | up dir _ ih => exact .up (hg.dir _ dir) (ih hs)
  | name dir there _ ih =>
    obtain ⟨j, hj⟩ := hg.exists_item there
    exact .name (hg.dir _ dir) hj (ih hs)
  | vacant => simp at hs

/-- A walk that ended before a free place goes on to it once something is there. -/
theorem Leads.filled {p r : Place} {n : Name} {i : Item} {ss : List Step}
    (h : Leads d p ss (.vacant r n)) (hi : d'.item? (r ++ [n]) = some i) :
    Leads d' p ss (.found (r ++ [n])) := by
  generalize hs : Spot.vacant r n = s at h
  induction h with
  | here => simp at hs
  | stay dir _ ih => exact .stay (hg.dir _ dir) (ih hs)
  | up dir _ ih => exact .up (hg.dir _ dir) (ih hs)
  | name dir there _ ih =>
    obtain ⟨j, hj⟩ := hg.exists_item there
    exact .name (hg.dir _ dir) hj (ih hs)
  | vacant dir free =>
    obtain ⟨rfl, rfl⟩ : r = _ ∧ n = _ := by simpa using hs
    exact .name (hg.dir _ dir) hi (.here _)

theorem place_grows (hd : d.Unlinked) {p : Text} {q : Place} (h : d.place p = .ok q) :
    d'.place p = .ok q := by
  obtain ⟨hne, hnul, hleads⟩ := (place_eq_ok_iff hd).1 h
  rw [place_eq_ok_iff (hg.unlinked hd), hg.cwd]
  exact ⟨hne, hnul, hleads.grows hg⟩

theorem place_filled (hd : d.Unlinked) {last : Bool} {p : Text} {r : Place} {n : Name} {i : Item}
    (h : d.locate last p = .ok (.vacant r n)) (hi : d'.item? (r ++ [n]) = some i) :
    d'.place p = .ok (r ++ [n]) := by
  obtain ⟨hne, hnul, hleads⟩ := (locate_eq_ok_iff hd).1 h
  rw [place_eq_ok_iff (hg.unlinked hd), hg.cwd]
  exact ⟨hne, hnul, hleads.filled hg hi⟩

end

/-- Where a vacant place is, nothing is. -/
theorem Leads.free {d : Disk} {p r : Place} {n : Name} {ss : List Step}
    (h : Leads d p ss (.vacant r n)) : d.item? (r ++ [n]) = none := by
  generalize hs : Spot.vacant r n = s at h
  induction h with
  | here => simp at hs
  | stay _ _ ih | up _ _ ih | name _ _ _ ih => exact ih hs
  | vacant _ free =>
    obtain ⟨rfl, rfl⟩ : r = _ ∧ n = _ := by simpa using hs
    exact free

theorem item?_of_vacant {d : Disk} (hd : d.Unlinked) {last : Bool} {p : Text} {r : Place} {n : Name}
    (h : d.locate last p = .ok (.vacant r n)) : d.item? (r ++ [n]) = none :=
  ((locate_eq_ok_iff hd).1 h).2.2.free

/-! ### Making directories -/

/-- New directories, each where one of some paths leads to. -/
structure Prepares (paths : Text → Prop) (d d' : Disk) : Prop where
  grows : d.Grows d'
  changed : ∀ q, d'.item? q ≠ d.item? q → d.item? q = none ∧ d'.item? q = some .dir ∧
    ∃ above, paths above ∧ d'.place above = .ok q

theorem Prepares.refl (paths : Text → Prop) (d : Disk) : Prepares paths d d :=
  ⟨.refl d, fun _ h => absurd rfl h⟩

theorem Prepares.mono {paths paths' : Text → Prop} {d d' : Disk} (h : Prepares paths d d')
    (hsub : ∀ p, paths p → paths' p) : Prepares paths' d d' where
  grows := h.grows
  changed q hq := by
    obtain ⟨hnone, hdir, above, hpath, hplace⟩ := h.changed q hq
    exact ⟨hnone, hdir, above, hsub above hpath, hplace⟩

theorem Prepares.trans {paths : Text → Prop} {d₁ d₂ d₃ : Disk} (hd : d₁.Unlinked)
    (h : Prepares paths d₁ d₂) (h' : Prepares paths d₂ d₃) : Prepares paths d₁ d₃ where
  grows := h.grows.trans h'.grows
  changed q hq := by
    by_cases hsame : d₃.item? q = d₂.item? q
    · obtain ⟨hnone, hdir, above, hpath, hplace⟩ := h.changed q (hsame ▸ hq)
      exact ⟨hnone, hsame ▸ hdir, above, hpath,
        place_grows h'.grows (h.grows.unlinked hd) hplace⟩
    · obtain ⟨hnone, hdir, hpath⟩ := h'.changed q hsame
      exact ⟨h.grows.there q hnone, hdir, hpath⟩

theorem makeDir_eq_ok_iff {d d' : Disk} {p : Text} : d.makeDir p = .ok d' ↔
    ∃ r n, d.locate false p = .ok (.vacant r n) ∧ d.put (r ++ [n]) .dir = d' := by
  rw [makeDir]
  cases d.locate false p with
  | error f => simp
  | ok spot => cases spot <;> simp

section
variable {d d' : Disk} (hd : d.Unlinked) {p : Text}
include hd

theorem prepares_of_makeDir (h : d.makeDir p = .ok d') : Prepares (· = p) d d' := by
  obtain ⟨r, n, hlocate, rfl⟩ := makeDir_eq_ok_iff.1 h
  have hne : r ++ [n] ≠ [] := by simp
  have hfree := item?_of_vacant hd hlocate
  have hgrows : d.Grows (d.put (r ++ [n]) .dir) := .put hne (by simp) (by simp)
  refine ⟨hgrows, fun q hq => ?_⟩
  obtain rfl := eq_of_item?_put_ne hne hq
  have hthere : (d.put (r ++ [n]) .dir).item? (r ++ [n]) = some .dir := by
    rw [item?_put hne, if_pos rfl]
  exact ⟨hfree, hthere, p, rfl, place_filled hgrows hd hlocate hthere⟩

theorem prepares_of_orThere (h : d.orThere p (d.makeDir p) = .ok d') : Prepares (· = p) d d' := by
  cases hmade : d.makeDir p with
  | ok made =>
    obtain rfl : made = d' := by simpa [orThere, hmade] using h
    exact prepares_of_makeDir hd hmade
  | error f =>
    simp only [orThere, hmade] at h
    by_cases hdir : d.isDir p = true
    · obtain rfl : d = d' := by simpa [hdir] using h
      exact .refl _ d
    · simp [hdir] at h

theorem prepares_of_makeDirsWithin {fuel : Nat} (h : d.makeDirsWithin fuel p = .ok d') :
    Prepares (fun above => above = p ∨ Path.IsAbove above p) d d' := by
  -- the directories above come first, each as its own path asks for
  induction fuel generalizing p d' with
  | zero => simp [makeDirsWithin] at h
  | succ fuel ih =>
    by_cases hempty : p.isEmpty = true
    · obtain rfl : d = d' := by simpa [makeDirsWithin, hempty] using h
      exact .refl _ d
    by_cases hmissing : d.makeDir p = .error .notFound
    · simp only [makeDirsWithin, if_neg hempty, hmissing] at h
      cases hparent : Path.parent p with
      | none => simp [hparent] at h
      | some home =>
        simp only [hparent] at h
        cases hmade : d.makeDirsWithin fuel home with
        | error f => simp [hmade] at h
        | ok d₁ =>
          simp only [hmade] at h
          have habove : Prepares (fun above => above = p ∨ Path.IsAbove above p) d d₁ :=
            (ih hmade).mono fun above hover => .inr (Path.isAbove_of_parent hparent hover)
          have hd₁ := habove.grows.unlinked hd
          exact habove.trans hd ((prepares_of_orThere hd₁ h).mono fun _ => .inl)
    · simp only [makeDirsWithin, if_neg hempty] at h
      exact (prepares_of_orThere hd h).mono fun _ => .inl

theorem prepares_of_makeDirs (h : d.makeDirs p = .ok d') :
    Prepares (fun above => above = p ∨ Path.IsAbove above p) d d' :=
  prepares_of_makeDirsWithin hd h

end

/-! ### Writing a file -/

/-- What writing a file does: its path leads to the only place that may have changed. -/
structure Writes (p content : Text) (d d' : Disk) : Prop where
  grows : d.Grows d'
  changed : ∀ q, d'.item? q ≠ d.item? q → d'.place p = .ok q
  holds : d'.Holds p content

theorem writes_of_put {d : Disk} {p content : Text} {q : Place} (hq : q ≠ [])
    (hfile : d.item? q ≠ some .dir)
    (hplace : ∀ d' : Disk, d.Grows d' → (∃ i, d'.item? q = some i) → d'.place p = .ok q) :
    Writes p content d (d.put q (.file (String.ofList content).toUTF8)) := by
  have hgrows : d.Grows (d.put q (.file (String.ofList content).toUTF8)) :=
    .put hq (fun h => absurd h hfile) (by simp)
  have hitem : (d.put q (.file (String.ofList content).toUTF8)).item? q =
      some (.file (String.ofList content).toUTF8) := by
    rw [item?_put hq, if_pos rfl]
  have hplace := hplace _ hgrows ⟨_, hitem⟩
  refine ⟨hgrows, fun r hr => ?_, q, hplace, hitem⟩
  exact eq_of_item?_put_ne hq hr ▸ hplace

theorem writes_of_writeFile {d d' : Disk} (hd : d.Unlinked) {p content : Text}
    (h : d.writeFile p content = .ok d') : Writes p content d d' := by
  by_cases hslash : (p.getLast? == some '/') = true
  · simp only [writeFile, if_pos hslash] at h
    cases hstem : d.locate false (p.reverse.dropWhile (· == '/')).reverse <;> simp [hstem] at h
  simp only [writeFile, if_neg hslash] at h
  cases hlocate : d.locate true p with
  | error f => simp [hlocate] at h
  | ok spot => cases spot with
    | vacant r n =>
      simp only [hlocate] at h
      obtain rfl := Except.ok.inj h
      refine writes_of_put (by simp) (by simp [item?_of_vacant hd hlocate]) ?_
      rintro d' hg ⟨i, hi⟩
      exact place_filled hg hd hlocate hi
    | found q =>
      simp only [hlocate] at h
      by_cases hdir : d.isDirAt q = true
      · simp [hdir] at h
      · rw [if_neg hdir] at h
        obtain rfl := Except.ok.inj h
        have hfile : d.item? q ≠ some .dir := fun h => hdir (isDirAt_iff.2 h)
        have hq : q ≠ [] := fun h => hfile (by simp [h, item?])
        refine writes_of_put hq hfile fun d' hg _ => place_grows hg hd ?_
        exact place_eq_ok_iff_locate.2 hlocate

end Disk
end GherkinIndex
