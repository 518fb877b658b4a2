import GherkinIndex.Proofs.Path.Root

/-! Paths that are cut already.

    What is left of a path begins where a component does. Cut at its root once more it stays as it
    is: the search meets the occurrences right of the first cut again and refuses those again that
    begin inside a component, as the character in front of each is still there. Then it comes to the
    start of what is left, where a component begins.

        root b           x/b/ab/f     b/ab/f
                             └┘         └┘       inside `ab`, refused
                           └┘         └┘         cut here -/

namespace GherkinIndex.Path

/-- The whole of `q` or the end of it behind a slash. -/
def FromComponent (q r : Text) : Prop :=
  ∃ before, q = before ++ r ∧ (before = [] ∨ before.getLast? = some '/')

section
variable {mark left right r near far : Text} {c : Char} {pass : Nat}

/-- What a search finds is a place that ends before the characters passed over. -/
theorem place_of_cutLeftwards (hmark : 0 < mark.length)
    (h : cutLeftwards mark pass left right = some r) :
    ∃ i, MarksAt mark (left.reverse ++ right) i ∧ i + mark.length + pass ≤ left.length ∧
      r = (left.reverse ++ right).drop i := by
  have hfinds : Finds mark (left.reverse ++ right) (left.length - pass)
      (cutLeftwards mark pass left right) := finds_cutLeftwards hmark pass
  rw [h] at hfinds
  cases hfinds with
  | some here ends _ => exact ⟨_, here, by omega, rfl⟩

/-! ### What lies left of the place

    The text left of the cursor is `near ++ far`, nearest first, and the place is where `near` ends. -/

/-- Between the cursor and the place there is room for the marker. -/
theorem length_near (hmark : 0 < mark.length)
    (h : cutLeftwards mark pass (near ++ far) right = some (near.reverse ++ right)) :
    mark.length + pass ≤ near.length := by
  obtain ⟨i, -, hroom, hfound⟩ := place_of_cutLeftwards hmark h
  have hlength := congrArg List.length hfound
  simp only [List.length_append, List.length_reverse, List.length_drop] at hlength hroom
  omega

/-- A search that goes on has the next character before the place. -/
theorem exists_near_cons (hmark : 0 < mark.length) (hleft : near ++ far = c :: left)
    (h : cutLeftwards mark pass left (c :: right) = some (near.reverse ++ right)) :
    ∃ near', near = c :: near' ∧ near' ++ far = left ∧
      cutLeftwards mark pass left (c :: right) = some (near'.reverse ++ c :: right) := by
  cases near with
  | nil =>
    -- the result would be shorter than what lies right of the cursor
    obtain ⟨i, -, hroom, hfound⟩ := place_of_cutLeftwards hmark h
    have hlength := congrArg List.length hfound
    simp at hlength
    omega
  | cons d near' =>
    obtain ⟨rfl, rfl⟩ := List.cons.inj hleft
    exact ⟨near', rfl, rfl, by simpa using h⟩

/-- An occurrence that ends at the cursor and is short enough does not reach the place. -/
theorem isPrefixOf?_near {before : Text} (hroom : mark.length ≤ near.length)
    (h : mark.reverse.isPrefixOf? (near ++ far) = some before) :
    ∃ before', mark.reverse.isPrefixOf? near = some before' ∧ before = before' ++ far := by
  have hsplit := List.isPrefixOf?_eq_some_iff_append_eq.1 h
  obtain ⟨before', hnear⟩ : mark.reverse <+: near :=
    List.prefix_of_prefix_length_le ⟨before, hsplit⟩ (List.prefix_append near far) (by simpa)
  refine ⟨before', List.isPrefixOf?_eq_some_iff_append_eq.2 hnear, ?_⟩
  rw [← hnear, List.append_assoc, List.append_cancel_left_eq] at hsplit
  exact hsplit

/-- What lies left of a place does not matter to a search that ends there. -/
theorem cutLeftwards_near (hmark : 0 < mark.length)
    (h : cutLeftwards mark pass (near ++ far) right = some (near.reverse ++ right)) :
    cutLeftwards mark pass near right = some (near.reverse ++ right) := by
  generalize hleft : near ++ far = left at h
  fun_induction cutLeftwards mark pass left right generalizing near with
  | case1 pass right => cases h
  | case2 pass c left right ih =>
    obtain ⟨near, rfl, hrest, hfound⟩ := exists_near_cons hmark hleft h
    rw [cutLeftwards, ih hrest hfound]
    simp
  | case3 c left right before hbefore hbegins =>
    -- the marker itself is what lies between the cursor and the place
    obtain rfl : mark = near.reverse := by simpa using h
    have hwhole : near.reverse.reverse.isPrefixOf? near = some [] := by
      rw [List.isPrefixOf?_eq_some_iff_append_eq]
      simp
    cases near with
    | nil => simp at hmark
    | cons d near =>
      simp only [cutLeftwards, hwhole]
      simp
  | case4 c left right before hbefore hinside ih =>
    -- the occurrence is refused again, for the character in front of it is still there
    obtain ⟨near, rfl, rfl, hfound⟩ := exists_near_cons hmark hleft h
    have hroom := length_near hmark hfound
    have hroom' : mark.length ≤ (c :: near).length := by
      rw [List.length_cons]
      omega
    obtain ⟨before', hbefore', rfl⟩ := isPrefixOf?_near hroom' hbefore
    have hlength := (split_of_isPrefixOf? hbefore').2
    have hinside' : ¬ (before'.isEmpty || before'.head? == some '/') = true := by
      cases before' with
      | nil =>
        rw [List.length_nil, List.length_cons] at hlength
        omega
      | cons d before' => simpa using hinside
    simp only [cutLeftwards, hbefore', if_neg hinside', ih rfl hfound]
    simp
  | case5 c left right hnone ih =>
    obtain ⟨near, rfl, rfl, hfound⟩ := exists_near_cons hmark hleft h
    have hnone' : mark.reverse.isPrefixOf? (c :: near) = none := by
      rw [Option.eq_none_iff_forall_ne_some]
      intro before hbefore
      have hsplit := List.isPrefixOf?_eq_some_iff_append_eq.1 hbefore
      have hwhole : mark.reverse.isPrefixOf? (c :: (near ++ far)) = some (before ++ far) := by
        rw [List.isPrefixOf?_eq_some_iff_append_eq, ← List.append_assoc, hsplit, List.cons_append]
      rw [hwhole] at hnone
      cases hnone
    simp only [cutLeftwards, hnone', ih rfl hfound]
    simp

end

/-! ### Roots -/

section
variable {root p r : Text}

theorem forward_forward (p : Text) : forward (forward p) = forward p :=
  forward_eq_self (backslash_not_mem_forward p)

theorem fromComponent_drop {q : Text} {i : Nat} (h : BeginsComponent q i) :
    FromComponent q (q.drop i) := by
  refine ⟨q.take i, (List.take_append_drop i q).symm, ?_⟩
  rcases h with rfl | hslash
  · exact .inl rfl
  · cases i with
    | zero => exact .inl rfl
    | succ i =>
      rw [Nat.add_sub_cancel] at hslash
      rw [List.take_add_one, hslash]
      exact .inr (by simp)

/-- The end of a path that a search has found is found whole when it is searched itself. -/
theorem cutLeftwards_found
    (h : cutLeftwards (marker root) 0 (forward p).reverse [] = some r) :
    FromComponent (forward p) r ∧ forward r = r ∧
      cutLeftwards (marker root) 0 r.reverse [] = some r := by
  obtain ⟨i, here, -, hr⟩ := place_of_cutLeftwards (length_marker_pos root) h
  rw [List.reverse_reverse, List.append_nil] at here hr
  subst hr
  refine ⟨fromComponent_drop here.begins, forward_eq_self fun hmem => ?_, ?_⟩
  · exact backslash_not_mem_forward p (List.mem_of_mem_drop hmem)
  · have hsplit : (forward p).reverse =
        ((forward p).drop i).reverse ++ ((forward p).take i).reverse := by
      rw [← List.reverse_append, List.take_append_drop]
    rw [hsplit] at h
    simpa using cutLeftwards_near (length_marker_pos root) (h.trans (by simp))

end

/-- CORRECT (cutting again): what is left of a path is the whole of it, with forward slashes, or the
    end of it behind one of them, and cutting that at the same root changes nothing. -/
theorem relativeTo_relativeTo (root p : Text) :
    FromComponent (forward p) (relativeTo root p) ∧
      relativeTo root (relativeTo root p) = relativeTo root p := by
  have hwhole : FromComponent (forward p) (forward p) := ⟨[], rfl, .inl rfl⟩
  by_cases hroot : stripSlashes root = []
  · have hnoRoot (q : Text) : relativeTo root q = forward q := by
      rw [relativeTo, if_pos (by simpa using hroot)]
    rw [hnoRoot, hnoRoot, forward_forward]
    exact ⟨hwhole, rfl⟩
  · rw [relativeTo_of_root hroot, relativeTo_of_root hroot]
    cases hfound : cutLeftwards (marker root) 0 (forward p).reverse [] with
    | none =>
      rw [Option.getD_none, forward_forward, hfound]
      exact ⟨hwhole, rfl⟩
    | some r =>
      obtain ⟨hfrom, hforward, hagain⟩ := cutLeftwards_found hfound
      rw [Option.getD_some, hforward, hagain]
      exact ⟨hfrom, rfl⟩

/-- The marker stands inside a component behind the place at which the path is cut. -/
example : relativeTo "b".toList "x\\b/ab/f".toList = "b/ab/f".toList ∧
    relativeTo "b".toList "b/ab/f".toList = "b/ab/f".toList := by decide

end GherkinIndex.Path
