import Mathlib.Data.List.Basic
import Mathlib.Order.Lattice.Nat
import Mathlib.Tactic.IntervalCases
import GherkinIndex.Path.Root

/-! Where a path is cut.

    A path is named from the last place on at which the root stands as whole components. The search
    goes leftwards and passes over a whole occurrence at a time, be it one that it refuses because it
    begins inside a component. A place that overlaps a refused occurrence is not looked at:

        root a/ba        x/a/ba/ba/f
                           └───┘          the last place, hidden
                              └───┘       begins inside `ba`, refused

    So a path is cut at the last place unless an occurrence inside a component begins within it. Some
    path has such an occurrence exactly if the root runs into itself there. -/

namespace GherkinIndex.Path

/-! ### Places -/

/-- What stands in a path where the root does: its text and the slash behind it. -/
def marker (root : Text) : Text := stripSlashes root ++ ['/']

def OccursAt (mark q : Text) (i : Nat) : Prop := mark <+: q.drop i

/-- A component begins at the start and behind each slash. -/
def BeginsComponent (q : Text) (i : Nat) : Prop := i = 0 ∨ q[i - 1]? = some '/'

/-- A place at which a path may be cut. -/
structure MarksAt (mark q : Text) (i : Nat) : Prop where
  occurs : OccursAt mark q i
  begins : BeginsComponent q i

/-- An occurrence that begins within the one at `i`, but inside a component. -/
structure RunsInto (mark q : Text) (i k : Nat) : Prop where
  behind : i < k
  within : k < i + mark.length
  occurs : OccursAt mark q k
  inside : ¬ BeginsComponent q k

/-- The result of cutting a path at the last place of the root. -/
inductive CutAtLast (root p : Text) : Text → Prop
  | noRoot (empty : stripSlashes root = []) : CutAtLast root p (forward p)
  | absent (nowhere : ∀ i, ¬ MarksAt (marker root) (forward p) i) : CutAtLast root p (forward p)
  | last {i : Nat} (given : stripSlashes root ≠ [])
      (greatest : IsGreatest {j | MarksAt (marker root) (forward p) j} i) :
      CutAtLast root p ((forward p).drop i)

/-- Behind some of its characters, not at the start of a component, the marker of a root begins
    anew. A backslash in a root stands in no path. -/
structure RunsIntoItself (root : Text) : Prop where
  noBackslash : '\\' ∉ root
  again : ∃ k, 0 < k ∧ k < (marker root).length ∧ (marker root).drop k <+: marker root ∧
    ¬ BeginsComponent (marker root) k

theorem length_marker_pos (root : Text) : 0 < (marker root).length := by simp [marker]

theorem MarksAt.lt_length {root q : Text} {i : Nat} (h : MarksAt (marker root) q i) :
    i < q.length := by
  have hlen := h.occurs.length_le
  have hpos := length_marker_pos root
  rw [List.length_drop] at hlen
  omega

/-- If there is a place, there is a last one. -/
theorem exists_last_mark {root q : Text} {i : Nat} (h : MarksAt (marker root) q i) :
    ∃ j, IsGreatest {j | MarksAt (marker root) q j} j := by
  have hbound : BddAbove {j | MarksAt (marker root) q j} := ⟨q.length, fun _ hj => hj.lt_length.le⟩
  exact ⟨_, Nat.sSup_mem ⟨i, h⟩ hbound, fun _ hj => le_csSup hbound hj⟩

/-! ### The search -/

/-- What has been found of the places that end up to `bound`: the last one, later ones aside that
    another occurrence runs into. -/
inductive Finds (mark q : Text) (bound : Nat) : Option Text → Prop
  | none (hidden : ∀ j, MarksAt mark q j → j + mark.length ≤ bound → ∃ k, RunsInto mark q j k) :
      Finds mark q bound none
  | some {i : Nat} (here : MarksAt mark q i) (ends : i + mark.length ≤ bound)
      (hidden : ∀ j, MarksAt mark q j → j + mark.length ≤ bound → i < j →
        ∃ k, RunsInto mark q j k) :
      Finds mark q bound (some (q.drop i))

/-- A search goes on to a greater bound if nothing more is to be found there. -/
theorem Finds.widen {mark q : Text} {bound bound' : Nat} {r : Option Text}
    (h : Finds mark q bound r) (hle : bound ≤ bound')
    (hmore : ∀ j, MarksAt mark q j → j + mark.length ≤ bound' →
      j + mark.length ≤ bound ∨ ∃ k, RunsInto mark q j k) : Finds mark q bound' r := by
  cases h with
  | none hidden => exact .none fun j hj hend => (hmore j hj hend).elim (hidden j hj) id
  | some here ends hidden =>
    refine .some here (ends.trans hle) fun j hj hend hlt => ?_
    exact (hmore j hj hend).elim (fun h => hidden j hj h hlt) id

section
variable {mark left right : Text}

theorem split_of_isPrefixOf? {before : Text} (h : mark.reverse.isPrefixOf? left = some before) :
    mark.reverse ++ before = left ∧ mark.length + before.length = left.length := by
  have hsplit := List.isPrefixOf?_eq_some_iff_append_eq.1 h
  refine ⟨hsplit, ?_⟩
  rw [← hsplit, List.length_append, List.length_reverse]

/-- An occurrence that ends at the cursor is read off what lies left of it. -/
theorem occursAt_cursor_iff {i : Nat} (hi : i + mark.length = left.length) :
    OccursAt mark (left.reverse ++ right) i ↔
      ∃ before, mark.reverse.isPrefixOf? left = some before := by
  have hdrop : (left.reverse ++ right).drop i = left.reverse.drop i ++ right :=
    List.drop_append_of_le_length (by rw [List.length_reverse]; omega)
  rw [OccursAt, hdrop]
  constructor
  · intro h
    have hmark : mark = left.reverse.drop i :=
      (List.prefix_of_prefix_length_le h (List.prefix_append ..) (by simp; omega)).eq_of_length
        (by simp; omega)
    refine ⟨(left.reverse.take i).reverse, List.isPrefixOf?_eq_some_iff_append_eq.2 ?_⟩
    rw [← List.reverse_append, hmark, List.take_append_drop, List.reverse_reverse]
  · rintro ⟨before, hbefore⟩
    obtain ⟨hsplit, hlen⟩ := split_of_isPrefixOf? hbefore
    rw [← hsplit, List.reverse_append, List.reverse_reverse,
      List.drop_left' (by rw [List.length_reverse]; omega)]
    exact List.prefix_append ..

/-- Whether a component begins behind a text shows at its end. -/
theorem beginsComponent_length_iff (before q : Text) :
    BeginsComponent (before.reverse ++ q) before.length ↔
      (before.isEmpty || before.head? == some '/') = true := by
  cases before with
  | nil => simp [BeginsComponent]
  | cons c before => simp [BeginsComponent]

theorem finds_cutLeftwards (hmark : 0 < mark.length) (pass : Nat) :
    Finds mark (left.reverse ++ right) (left.length - pass) (cutLeftwards mark pass left right) := by
  fun_induction cutLeftwards mark pass left right with
  | case1 pass right =>
    refine .none fun j _ hend => ?_
    rw [List.length_nil] at hend
    omega
  | case2 pass c left right ih => simpa using ih
  | case3 c left right before hbefore hbegins =>
    -- an occurrence at the start of a component is the last place
    obtain ⟨hsplit, hlen⟩ := split_of_isPrefixOf? hbefore
    have hq : (c :: left).reverse ++ right = before.reverse ++ (mark ++ right) := by
      rw [← hsplit]
      simp
    have hend : mark ++ right = (before.reverse ++ (mark ++ right)).drop before.length :=
      (List.drop_left' (List.length_reverse ..)).symm
    have hmarks : MarksAt mark (before.reverse ++ (mark ++ right)) before.length := by
      refine ⟨?_, (beginsComponent_length_iff ..).2 hbegins⟩
      rw [OccursAt, ← hend]
      exact List.prefix_append ..
    have hfound : Finds mark (before.reverse ++ (mark ++ right)) ((c :: left).length - 0)
        (some ((before.reverse ++ (mark ++ right)).drop before.length)) :=
      .some hmarks (by omega) fun j _ hj hlt => by omega
    rwa [← hend, ← hq] at hfound
  | case4 c left right before hbefore hinside ih =>
    -- a refused occurrence hides the places that it overlaps
    obtain ⟨hsplit, hlen⟩ := split_of_isPrefixOf? hbefore
    have hcursor : before.length + mark.length = (c :: left).length := by omega
    have hq : left.reverse ++ c :: right = (c :: left).reverse ++ right := by simp
    have hoccurs : OccursAt mark ((c :: left).reverse ++ right) before.length :=
      (occursAt_cursor_iff hcursor).2 ⟨before, hbefore⟩
    have hnot : ¬ BeginsComponent ((c :: left).reverse ++ right) before.length := by
      rw [← hsplit, List.reverse_append, List.append_assoc, beginsComponent_length_iff]
      exact hinside
    rw [hq] at ih
    refine ih.widen (by simp; omega) fun j hj hend => ?_
    rw [List.length_cons] at hcursor hend
    have hne : j ≠ before.length := by
      rintro rfl
      exact hnot hj.begins
    by_cases hover : before.length < j + mark.length
    · exact .inr ⟨before.length, by omega, hover, hoccurs, hnot⟩
    · exact .inl (by omega)
  | case5 c left right hnone ih =>
    have hq : left.reverse ++ c :: right = (c :: left).reverse ++ right := by simp
    rw [hq] at ih
    refine ih.widen (by simp) fun j hj hend => .inl ?_
    by_contra hlate
    rw [List.length_cons] at hend
    obtain ⟨before, hbefore⟩ :=
      (occursAt_cursor_iff (by rw [List.length_cons]; omega)).1 hj.occurs
    simp [hnone] at hbefore

/-- What a refused occurrence at the cursor overlaps is not looked at. -/
theorem finds_of_refused (hmark : 0 < mark.length) {before : Text}
    (hbefore : mark.reverse.isPrefixOf? left = some before)
    (hinside : ¬ BeginsComponent (left.reverse ++ right) before.length) :
    Finds mark (left.reverse ++ right) before.length (cutLeftwards mark 0 left right) := by
  obtain ⟨hsplit, hlen⟩ := split_of_isPrefixOf? hbefore
  rw [← hsplit, List.reverse_append, List.append_assoc, beginsComponent_length_iff] at hinside
  cases left with
  | nil =>
    rw [List.length_nil] at hlen
    omega
  | cons c left =>
    have hq : (c :: left).reverse ++ right = left.reverse ++ c :: right := by simp
    have hbound : before.length = left.length - (mark.length - 1) := by
      rw [List.length_cons] at hlen
      omega
    simp only [cutLeftwards, hbefore, if_neg hinside]
    rw [hq, hbound]
    exact finds_cutLeftwards hmark (mark.length - 1)

end

/-- What a search through a whole path finds. -/
theorem finds_whole (root p : Text) : Finds (marker root) (forward p) (forward p).length
    (cutLeftwards (marker root) 0 (forward p).reverse []) := by
  have h := @finds_cutLeftwards (marker root) (forward p).reverse [] (length_marker_pos root) 0
  simpa using h

/-! ### Roots -/

section
variable {root p : Text}

theorem relativeTo_of_root (h : stripSlashes root ≠ []) : relativeTo root p =
    (cutLeftwards (marker root) 0 (forward p).reverse []).getD (forward p) := by
  rw [relativeTo, if_neg (by simpa using h), marker]

/-- A path is cut at the last place if no occurrence inside a component runs into it. -/
theorem cutAtLast_of_clear
    (hclear : ∀ i, IsGreatest {j | MarksAt (marker root) (forward p) j} i →
      ¬ ∃ k, RunsInto (marker root) (forward p) i k) : CutAtLast root p (relativeTo root p) := by
  by_cases hroot : stripSlashes root = []
  · rw [relativeTo, if_pos (by simpa using hroot)]
    exact .noRoot hroot
  rw [relativeTo_of_root hroot]
  have hends : ∀ {j}, MarksAt (marker root) (forward p) j →
      j + (marker root).length ≤ (forward p).length := by
    intro j hj
    have hlen := hj.occurs.length_le
    rw [List.length_drop] at hlen
    have := hj.lt_length
    omega
  generalize cutLeftwards (marker root) 0 (forward p).reverse [] = r, finds_whole root p = hfinds
  cases hfinds with
  | none hidden =>
    refine .absent fun j hj => ?_
    obtain ⟨i, hi⟩ := exists_last_mark hj
    exact hclear i hi (hidden i hi.1 (hends hi.1))
  | @some i here ends hidden =>
    refine .last hroot ⟨here, fun j hj => ?_⟩
    by_contra hlt
    obtain ⟨l, hl⟩ := exists_last_mark here
    have hil : i < l := (Nat.lt_of_not_le hlt).trans_le (hl.2 hj)
    exact hclear l hl (hidden l hl.1 (hends hl.1) hil)

/-- Only slashes are stripped. -/
theorem mem_stripSlashes_iff {c : Char} (hc : c ≠ '/') {t : Text} : c ∈ stripSlashes t ↔ c ∈ t := by
  have hdrop : ∀ u : Text, c ∈ u.dropWhile (· == '/') ↔ c ∈ u := by
    intro u
    induction u with
    | nil => rfl
    | cons d u ih =>
      by_cases hd : d = '/'
      · rw [List.dropWhile_cons_of_pos (by simp [hd]), ih, List.mem_cons, or_iff_right (hd ▸ hc)]
      · rw [List.dropWhile_cons_of_neg (by simp [hd])]
  rw [stripSlashes, List.mem_reverse, hdrop, List.mem_reverse, hdrop]

theorem backslash_not_mem_forward (p : Text) : '\\' ∉ forward p := by
  rw [forward, List.mem_map]
  rintro ⟨c, -, hc⟩
  by_cases hslash : c = '\\'
  · rw [if_pos hslash] at hc
    exact absurd hc (by decide)
  · rw [if_neg hslash] at hc
    exact hslash hc

/-- A path without backslashes has forward slashes only. -/
theorem forward_eq_self (h : '\\' ∉ p) : forward p = p := by
  have hkeep : ∀ c ∈ p, (if c = '\\' then '/' else c) = c := by
    intro c hc
    rw [if_neg]
    rintro rfl
    exact h hc
  rw [forward, List.map_congr_left hkeep, List.map_id']

/-- Where a component begins in an occurrence, one begins in the path. -/
theorem beginsComponent_add_iff {mark q : Text} {i k : Nat} (h : OccursAt mark q i) (hk : 0 < k)
    (hlt : k < mark.length) : BeginsComponent q (i + k) ↔ BeginsComponent mark k := by
  obtain ⟨rest, hrest⟩ := h
  have hbefore : q[i + k - 1]? = mark[k - 1]? := by
    rw [Nat.add_sub_assoc hk, ← List.getElem?_drop, ← hrest,
      List.getElem?_append_left (by omega)]
  have hne : i + k ≠ 0 := by omega
  simp only [BeginsComponent, hbefore, hne, Nat.pos_iff_ne_zero.1 hk, false_or]

/-- What runs into a place of a path shows that the root runs into itself. -/
theorem runsIntoItself_of_runsInto {i k : Nat} (hi : MarksAt (marker root) (forward p) i)
    (hk : RunsInto (marker root) (forward p) i k) : RunsIntoItself root := by
  obtain ⟨l, rfl⟩ := Nat.exists_eq_add_of_lt hk.behind
  have hwithin := hk.within
  refine ⟨fun hmem => ?_, l + 1, by omega, by omega, ?_, ?_⟩
  · have hmark : '\\' ∈ marker root :=
      List.mem_append_left _ ((mem_stripSlashes_iff (by decide)).2 hmem)
    exact backslash_not_mem_forward p (List.mem_of_mem_drop (hi.occurs.subset hmark))
  · have hagain : (marker root).drop (l + 1) <+: (forward p).drop (i + l + 1) := by
      have hdrop : (forward p).drop (i + l + 1) = ((forward p).drop i).drop (l + 1) := by
        rw [List.drop_drop, Nat.add_assoc]
      exact hdrop ▸ hi.occurs.drop (l + 1)
    exact List.prefix_of_prefix_length_le hagain hk.occurs (by simp)
  · rw [← beginsComponent_add_iff hi.occurs (by omega) (by omega)]
    exact hk.inside

/-- Cutting at a place behind the start shortens a path. -/
theorem CutAtLast.length_lt {r : Text} (h : CutAtLast root p r) (hroot : stripSlashes root ≠ [])
    {i : Nat} (hi : MarksAt (marker root) (forward p) i) (hpos : 0 < i) :
    r.length < (forward p).length := by
  cases h with
  | noRoot empty => exact absurd empty hroot
  | absent nowhere => exact absurd hi (nowhere i)
  | last _ greatest =>
    have hle := greatest.2 hi
    have hlt := hi.lt_length
    rw [List.length_drop]
    omega

/-- A root that runs into itself hides the last place of a path: the marker begins behind a slash
    there and runs into another one at the very end. -/
theorem not_cutAtLast_of_runsIntoItself (h : RunsIntoItself root) :
    ∃ p, ¬ CutAtLast root p (relativeTo root p) := by
  obtain ⟨hslash, k, hpos, hlt, ⟨rest, hrest⟩, hinside⟩ := h
  generalize hmark : marker root = mark at *
  have hroot : stripSlashes root ≠ [] := by
    intro hnil
    rw [← hmark, marker, hnil, List.nil_append, List.length_singleton] at hlt
    omega
  let p : Text := ('/' :: mark.take k) ++ mark
  have hp : forward p = p := by
    refine forward_eq_self ?_
    have hnot : '\\' ∉ mark := by
      simpa [← hmark, marker, mem_stripSlashes_iff] using hslash
    simpa [p, hnot] using fun hmem => hnot (List.mem_of_mem_take hmem)
  have hplace : MarksAt mark p 1 := by
    refine ⟨⟨rest, ?_⟩, .inr rfl⟩
    calc mark ++ rest
        = mark.take k ++ (mark.drop k ++ rest) := by
          rw [← List.append_assoc, List.take_append_drop]
      _ = p.drop 1 := by rw [hrest]; rfl
  have hend : mark.reverse.isPrefixOf? p.reverse = some ('/' :: mark.take k).reverse := by
    rw [List.isPrefixOf?_eq_some_iff_append_eq, ← List.reverse_append]
  have hlength : ('/' :: mark.take k).reverse.length = 1 + k := by
    rw [List.length_reverse, List.length_cons, List.length_take, min_eq_left hlt.le, Nat.add_comm]
  have hrefused : ¬ BeginsComponent (p.reverse.reverse ++ []) ('/' :: mark.take k).reverse.length := by
    rw [List.reverse_reverse, List.append_nil, hlength,
      beginsComponent_add_iff hplace.occurs hpos hlt]
    exact hinside
  -- nothing that ends before the marker at the end begins behind the start
  have hwhole : relativeTo root p = p := by
    have hfinds := finds_of_refused (by omega) hend hrefused
    rw [relativeTo_of_root hroot, hmark, hp]
    generalize cutLeftwards mark 0 p.reverse [] = r at *
    cases hfinds with
    | none _ => rfl
    | @some i _ ends _ =>
      have hi : i = 0 := by omega
      simp [hi]
  refine ⟨p, fun hcut => ?_⟩
  have hshorter := hcut.length_lt hroot (by rw [hmark, hp]; exact hplace) Nat.one_pos
  rw [hwhole, hp] at hshorter
  exact lt_irrefl _ hshorter

end

/-- CORRECT (cutting): a path is cut at the last place of the root unless an occurrence inside a
    component runs into that place. So a root cuts every path there exactly if it does not run into
    itself. -/
theorem relativeTo_cuts_at_last (root : Text) :
    (∀ p, (∀ i, IsGreatest {j | MarksAt (marker root) (forward p) j} i →
        ¬ ∃ k, RunsInto (marker root) (forward p) i k) → CutAtLast root p (relativeTo root p)) ∧
      ((∀ p, CutAtLast root p (relativeTo root p)) ↔ ¬ RunsIntoItself root) := by
  refine ⟨fun p => cutAtLast_of_clear, fun hall hself => ?_, fun hself p => ?_⟩
  · obtain ⟨p, hp⟩ := not_cutAtLast_of_runsIntoItself hself
    exact hp (hall p)
  · refine cutAtLast_of_clear fun i hi ⟨k, hk⟩ => hself ?_
    exact runsIntoItself_of_runsInto hi.1 hk

/-- In a root of two components its own text may stand again, at the start of a component: the last
    place is found. -/
theorem relativeTo_cuts_at_last_twice :
    ¬ RunsIntoItself "a/a".toList ∧
      CutAtLast "a/a".toList "x/a/a/a/f".toList (relativeTo "a/a".toList "x/a/a/a/f".toList) ∧
      relativeTo "a/a".toList "x/a/a/a/f".toList = "a/a/f".toList := by
  have hself : ¬ RunsIntoItself "a/a".toList := by
    rintro ⟨-, k, hpos, hlt, hagain, hinside⟩
    have hk : k < 4 := hlt
    interval_cases k
    · exact absurd hagain (by decide)
    · exact hinside (.inr rfl)
    · exact absurd hagain (by decide)
  exact ⟨hself, (relativeTo_cuts_at_last "a/a".toList).2.2 hself _, rfl⟩

/-- The second `a/ba` begins inside a component and hides the first one. -/
theorem last_place_hidden : MarksAt (marker "a/ba".toList) "x/a/ba/ba/f".toList 2 ∧
    relativeTo "a/ba".toList "x/a/ba/ba/f".toList = "x/a/ba/ba/f".toList ∧
    ¬ CutAtLast "a/ba".toList "x/a/ba/ba/f".toList
      (relativeTo "a/ba".toList "x/a/ba/ba/f".toList) := by
  have hplace : MarksAt (marker "a/ba".toList) "x/a/ba/ba/f".toList 2 :=
    ⟨⟨"ba/f".toList, rfl⟩, .inr rfl⟩
  refine ⟨hplace, rfl, fun hcut => ?_⟩
  exact absurd (hcut.length_lt (by decide) hplace (by decide)) (by decide)

end GherkinIndex.Path
