import GherkinIndex.Proofs.Text.Trim
import GherkinIndex.Text.Lines

/-! Lines of a text that goes on.

    Where a text ends with a line feed nothing of its last line is left over, so the lines of what is
    written behind it are the lines behind its own.

        "a\nb\n" ++ "c\nd"    a b | c d        "a\nb" ++ "c\nd"    a bc d

    How lines end does not matter to a reader who trims them: a line end is made of blanks. -/

namespace GherkinIndex.Text

theorem pieces_feed (t : Text) : pieces ('\n' :: t) = ['\n'] :: pieces t := by
  rw [pieces, if_pos rfl]

/-- A character that ends no line joins the piece behind it. -/
theorem pieces_cons {c : Char} (hc : c ≠ '\n') {t p : Text} {ps : List Text}
    (h : pieces t = p :: ps) : pieces (c :: t) = (c :: p) :: ps := by
  rw [pieces, if_neg hc, h]

theorem pieces_ne_nil {t : Text} (ht : t ≠ []) : pieces t ≠ [] := by
  cases t with
  | nil => exact absurd rfl ht
  | cons c t =>
    by_cases hc : c = '\n'
    · rw [hc, pieces_feed]
      exact List.cons_ne_nil _ _
    · rw [pieces, if_neg hc]
      cases pieces t <;> exact List.cons_ne_nil _ _

/-- Behind a line feed a new piece starts. -/
theorem pieces_append {t : Text} (ht : t.getLast? = some '\n') (u : Text) :
    pieces (t ++ u) = pieces t ++ pieces u := by
  induction t with
  | nil => simp at ht
  | cons c t ih =>
    cases t with
    | nil =>
      obtain rfl : c = '\n' := by simpa using ht
      simp [pieces]
    | cons d t =>
      have hrest := ih (by rwa [List.getLast?_cons_cons] at ht)
      obtain ⟨p, ps, hp⟩ := List.exists_cons_of_ne_nil (pieces_ne_nil (List.cons_ne_nil d t))
      by_cases hc : c = '\n'
      · rw [hc, List.cons_append, pieces_feed, pieces_feed, hrest, List.cons_append]
      · have hwhole : pieces (d :: t ++ u) = p :: (ps ++ pieces u) := by
          rw [hrest, hp, List.cons_append]
        rw [List.cons_append, pieces_cons hc hwhole, pieces_cons hc hp, List.cons_append]

theorem lines_append {t : Text} (ht : t.getLast? = some '\n') (u : Text) :
    lines (t ++ u) = lines t ++ lines u := by
  rw [lines, pieces_append ht, List.map_append, ← lines, ← lines]

theorem lines_ne_nil {t : Text} (ht : t ≠ []) : lines t ≠ [] := by
  rw [lines, ne_eq, List.map_eq_nil_iff]
  exact pieces_ne_nil ht

/-- A line feed stands nowhere but at the end of a piece. -/
theorem feed_not_mem_dropLast {t p : Text} (hp : p ∈ pieces t) : '\n' ∉ p.dropLast := by
  induction t generalizing p with
  | nil => cases hp
  | cons c t ih =>
    by_cases hc : c = '\n'
    · rw [hc, pieces_feed, List.mem_cons] at hp
      rcases hp with rfl | hp
      · simp
      · exact ih hp
    · cases ht : pieces t with
      | nil =>
        rw [pieces, if_neg hc, ht, List.mem_singleton] at hp
        simp [hp]
      | cons q qs =>
        rw [pieces_cons hc ht, List.mem_cons] at hp
        rw [ht] at ih
        rcases hp with rfl | hp
        · cases q with
          | nil => simp
          | cons d q =>
            rw [List.dropLast_cons_cons, List.mem_cons, not_or]
            exact ⟨Ne.symm hc, ih List.mem_cons_self⟩
        · exact ih (List.mem_cons_of_mem q hp)

theorem feed_not_mem_withoutEnd {p : Text} (hp : '\n' ∉ p.dropLast) : '\n' ∉ withoutEnd p := by
  induction p using withoutEnd.induct with
  | case1 => exact hp
  | case2 => exact List.not_mem_nil
  | case3 => exact List.not_mem_nil
  | case4 c t hfeed hreturn ih =>
    cases t with
    | nil =>
      have hc : c ≠ '\n' := fun h => hfeed h rfl
      simpa [withoutEnd] using Ne.symm hc
    | cons d t =>
      rw [List.dropLast_cons_cons, List.mem_cons, not_or] at hp
      rw [withoutEnd, List.mem_cons, not_or]
      · exact ⟨hp.1, ih hp.2⟩
      · exact hfeed
      · exact hreturn

/-- A line has no line feed in it. -/
theorem feed_not_mem_line {t x : Text} (hx : x ∈ lines t) : '\n' ∉ x := by
  obtain ⟨p, hp, rfl⟩ := List.mem_map.1 hx
  exact feed_not_mem_withoutEnd (feed_not_mem_dropLast hp)

/-! ### The byte-order mark -/

theorem dropMark_mark (t : Text) : dropMark ('\uFEFF' :: t) = t := rfl

theorem dropMark_of_ne {c : Char} (hc : c ≠ '\uFEFF') (t : Text) : dropMark (c :: t) = c :: t := by
  have hmark (u : Text) (h : c :: t = '\uFEFF' :: u) : False := hc (List.cons.inj h).1
  rw [dropMark.eq_2 _ hmark]

/-- A mark is dropped from the first of two texts or not at all. -/
theorem dropMark_append {t : Text} (ht : t ≠ []) (u : Text) :
    dropMark (t ++ u) = dropMark t ++ u := by
  cases t with
  | nil => exact absurd rfl ht
  | cons c t =>
    by_cases hc : c = '\uFEFF'
    · rw [hc, List.cons_append, dropMark_mark, dropMark_mark]
    · rw [List.cons_append, dropMark_of_ne hc, dropMark_of_ne hc, List.cons_append]

/-- A mark does not end a line. -/
theorem getLast?_dropMark {t : Text} (ht : t.getLast? = some '\n') :
    (dropMark t).getLast? = some '\n' := by
  cases t with
  | nil => simp at ht
  | cons c t =>
    by_cases hc : c = '\uFEFF'
    · subst hc
      cases t with
      | nil => simp at ht
      | cons d t => rwa [dropMark_mark, ← List.getLast?_cons_cons]
    · rwa [dropMark_of_ne hc]

/-- The text does not start with a byte-order mark. -/
def Unmarked (t : Text) : Prop := t.head? ≠ some '\uFEFF'

instance (t : Text) : Decidable (Unmarked t) := inferInstanceAs (Decidable (_ ≠ _))

theorem dropMark_of_unmarked {t : Text} (ht : Unmarked t) : dropMark t = t := by
  cases t with
  | nil => rfl
  | cons c t => exact dropMark_of_ne (by simpa [Unmarked] using ht) t

/-! ### Line ends -/

/-- The text with a carriage return before every line feed. -/
def withReturns (t : Text) : Text := t.flatMap fun c => if c = '\n' then ['\r', '\n'] else [c]

theorem unmarked_withReturns {t : Text} (ht : Unmarked t) : Unmarked (withReturns t) := by
  cases t with
  | nil => exact ht
  | cons c t =>
    by_cases hc : c = '\n'
    · simp [Unmarked, withReturns, hc]
    · simpa [Unmarked, withReturns, hc] using ht

theorem unmarked_feed {t : Text} (ht : Unmarked t) : Unmarked (t ++ ['\n']) := by
  cases t with
  | nil => decide
  | cons c t => exact ht

theorem trimEnd_withoutEnd (p : Text) : trimEnd (withoutEnd p) = trimEnd p := by
  induction p using withoutEnd.induct with
  | case1 => rfl
  | case2 => rfl
  | case3 => rfl
  | case4 c t hfeed hreturn ih =>
    rw [withoutEnd]
    · exact trimEnd_congr_cons c ih
    · exact hfeed
    · exact hreturn

/-- Trimmed lines are trimmed pieces. -/
theorem map_trimEnd_lines (t : Text) : (lines t).map trimEnd = (pieces t).map trimEnd := by
  rw [lines, List.map_map]
  exact List.map_congr_left fun p _ => trimEnd_withoutEnd p

/-- A character that ends no line keeps trimmed pieces alike. -/
theorem map_trimEnd_pieces_cons {c : Char} (hc : c ≠ '\n') {s t : Text}
    (h : (pieces s).map trimEnd = (pieces t).map trimEnd) :
    (pieces (c :: s)).map trimEnd = (pieces (c :: t)).map trimEnd := by
  cases hs : pieces s with
  | nil =>
    have ht : pieces t = [] := by simpa [hs] using h.symm
    rw [pieces, if_neg hc, pieces, if_neg hc, hs, ht]
  | cons p ps =>
    cases ht : pieces t with
    | nil => simp [hs, ht] at h
    | cons q qs =>
      rw [hs, ht, List.map_cons, List.map_cons, List.cons.injEq] at h
      rw [pieces_cons hc hs, pieces_cons hc ht, List.map_cons, List.map_cons, h.2,
        trimEnd_congr_cons c h.1]

theorem map_trimEnd_pieces_withReturns (t : Text) :
    (pieces (withReturns t)).map trimEnd = (pieces t).map trimEnd := by
  induction t with
  | nil => rfl
  | cons c t ih =>
    by_cases hc : c = '\n'
    · have hhead : withReturns (c :: t) = '\r' :: '\n' :: withReturns t := by simp [withReturns, hc]
      rw [hhead, pieces_cons (by decide) (pieces_feed _), hc, pieces_feed, List.map_cons,
        List.map_cons, ih]
      rfl
    · have hhead : withReturns (c :: t) = c :: withReturns t := by simp [withReturns, hc]
      rw [hhead]
      exact map_trimEnd_pieces_cons hc ih

/-- A line feed at the very end completes the last line and opens no other. -/
theorem map_trimEnd_pieces_feed {t : Text} (ht : t ≠ []) (hlast : t.getLast? ≠ some '\n') :
    (pieces (t ++ ['\n'])).map trimEnd = (pieces t).map trimEnd := by
  induction t with
  | nil => exact absurd rfl ht
  | cons c t ih =>
    cases t with
    | nil =>
      have hc : c ≠ '\n' := by simpa using hlast
      have hpieces : pieces [c] = [[c]] := by rw [pieces, if_neg hc]; rfl
      rw [List.singleton_append, pieces_cons hc (pieces_feed []), hpieces]
      exact congrArg ([·]) (trimEnd_append_of_blank [c] (List.forall_mem_singleton.2 rfl))
    | cons d t =>
      have hrest := ih (List.cons_ne_nil d t) (by rwa [List.getLast?_cons_cons] at hlast)
      rw [List.cons_append]
      by_cases hc : c = '\n'
      · rw [hc, pieces_feed, pieces_feed, List.map_cons, hrest, List.map_cons]
      · exact map_trimEnd_pieces_cons hc hrest

end GherkinIndex.Text
