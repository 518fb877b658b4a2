import GherkinIndex.Json.Read
import GherkinIndex.Proofs.Text.Digits

/-! What is printed reads back.

    The reader gets the printed form of a value with more text behind it, takes the value and hands
    back that text. All it needs of the text behind is that it does not go on with a digit, and all
    the fuel it needs is the length of what was printed. -/

namespace GherkinIndex.Json

/-! ### Strings -/

theorem hexValue_hexDigit {n : Nat} (h : n < 16) : Text.hexValue (hexDigit n) = some n := by
  have hall : ∀ n < 16, Text.hexValue (hexDigit n) = some n := by decide
  exact hall n h

section
variable (t : Text)

theorem readString_short {e c : Char} (he : e ≠ 'u') (hc : escapedChar e = some c) :
    readString ('\\' :: e :: t) = push c (readString t) := by
  rw [readString, hc]
  intro a b c d u hu
  exact absurd hu he

theorem readString_unit {c : Char} (hc : c.toNat < 0x20) :
    readString ('\\' :: 'u' :: '0' :: '0' :: hexDigit (c.toNat / 16) ::
      hexDigit (c.toNat % 16) :: t) = push c (readString t) := by
  have hzero : Text.hexValue '0' = some 0 := rfl
  have hhigh := hexValue_hexDigit (show c.toNat / 16 < 16 by omega)
  have hlow := hexValue_hexDigit (show c.toNat % 16 < 16 by omega)
  have hunit : hexUnit '0' '0' (hexDigit (c.toNat / 16)) (hexDigit (c.toNat % 16)) =
      some c.toNat := by
    simp only [hexUnit, hzero, hhigh, hlow]
    exact congrArg some (by omega)
  have hnotHigh : isHighSurrogate c.toNat = false := by simp [isHighSurrogate]; omega
  have hnotLow : isLowSurrogate c.toNat = false := by simp [isLowSurrogate]; omega
  simp [readString, hunit, hnotHigh, hnotLow]

theorem readString_plain {c : Char} (hquote : c ≠ '"') (hslash : c ≠ '\\') (hc : ¬ c.toNat < 0x20) :
    readString (c :: t) = push c (readString t) := by
  rw [readString]
  · simp [hslash, hc]
  · exact hquote
  · intro a b c d u h
    exact absurd h hslash
  · intro e u h
    exact absurd h hslash

/-- A character reads back from the way it stands in a string. -/
theorem readString_escapeChar (c : Char) :
    readString (escapeChar c ++ t) = push c (readString t) := by
  unfold escapeChar
  split_ifs with h₁ h₂ h₃ h₄ h₅ h₆ h₇ h₈
  · exact readString_short t (by decide) (by rw [h₁]; rfl)
  · exact readString_short t (by decide) (by rw [h₂]; rfl)
  · exact readString_short t (by decide) (by rw [h₃]; rfl)
  · exact readString_short t (by decide) (by rw [h₄]; rfl)
  · exact readString_short t (by decide) (by rw [h₅]; rfl)
  · exact readString_short t (by decide) (by rw [h₆]; rfl)
  · exact readString_short t (by decide) (by rw [h₇]; rfl)
  · exact readString_unit t h₈
  · exact readString_plain t h₁ h₂ h₈

end

/-- A string reads back up to its closing quote. -/
theorem readString_quoted (s rest : Text) :
    readString (s.flatMap escapeChar ++ '"' :: rest) = some (s, rest) := by
  induction s with
  | nil => rfl
  | cons c s ih => rw [List.flatMap_cons, List.append_assoc, readString_escapeChar, ih, push]

/-! ### Layout -/

theorem skip_newline (depth : Nat) (t : Text) : skip (newline depth ++ t) = skip t := by
  rw [newline, skip, List.cons_append, List.dropWhile_cons_of_pos rfl,
    List.dropWhile_append_of_pos]
  · rfl
  · intro c hc
    rw [List.eq_of_mem_replicate hc]
    rfl

/-- A character that a value may start with: no blank and no closing bracket. -/
def Opens (c : Char) : Prop := c ∉ [' ', '\t', '\n', '\r', ']']

theorem skip_of_opens {c : Char} (hc : Opens c) (t : Text) : skip (c :: t) = c :: t := by
  simp only [Opens, List.mem_cons, List.not_mem_nil, or_false, not_or] at hc
  exact List.dropWhile_cons_of_neg (by simp [hc])

theorem opens_of_isDigit {c : Char} (hc : c.isDigit = true) : Opens c := by
  simp only [Opens, List.mem_cons, List.not_mem_nil, or_false]
  rintro (rfl | rfl | rfl | rfl | rfl) <;> simp at hc

/-- The first character of a value tells that a value starts here. -/
theorem print_opens (depth : Nat) (v : Json) : ∃ c t, print depth v = c :: t ∧ Opens c := by
  cases v with
  | null => exact ⟨'n', _, rfl, by simp [Opens]⟩
  | bool b =>
    cases b with
    | false => exact ⟨'f', _, rfl, by simp [Opens]⟩
    | true => exact ⟨'t', _, rfl, by simp [Opens]⟩
  | nat n =>
    obtain ⟨c, t, ht⟩ := List.exists_cons_of_ne_nil (Text.ofNat_ne_nil n)
    have hc : c ∈ Text.ofNat n := by simp [ht]
    exact ⟨c, t, by rw [print, ht], opens_of_isDigit (Text.isDigit_of_mem_ofNat hc)⟩
  | text t => exact ⟨'"', _, rfl, by simp [Opens]⟩
  | list xs => cases xs <;> exact ⟨'[', _, rfl, by simp [Opens]⟩
  | object fs => cases fs <;> exact ⟨'{', _, rfl, by simp [Opens]⟩

theorem skip_print (depth : Nat) (v : Json) (t : Text) :
    skip (print depth v ++ t) = print depth v ++ t := by
  obtain ⟨c, u, hu, hc⟩ := print_opens depth v
  rw [hu, List.cons_append, skip_of_opens hc]

theorem head?_print (depth : Nat) (v : Json) (t : Text) :
    (print depth v ++ t).head? ≠ some ']' := by
  obtain ⟨c, u, hu, hc⟩ := print_opens depth v
  rw [hu, List.cons_append, List.head?_cons, ne_eq, Option.some.injEq]
  rintro rfl
  simp [Opens] at hc

section
variable (fuel depth : Nat) (t : Text)

theorem readValue_newline : readValue fuel (newline depth ++ t) = readValue fuel t := by
  cases fuel with
  | zero => rfl
  | succ fuel => rw [readValue, readValue, skip_newline]

theorem readItems_newline : readItems fuel (newline depth ++ t) = readItems fuel t := by
  cases fuel with
  | zero => rfl
  | succ fuel => rw [readItems, readItems, readValue_newline]

theorem readFields_newline : readFields fuel (newline depth ++ t) = readFields fuel t := by
  cases fuel with
  | zero => rfl
  | succ fuel => rw [readFields, readFields, skip_newline]

end

/-! ### Plain values -/

/-- What stands behind a value does not go on with a digit. -/
def Ends (t : Text) : Prop := ∀ c ∈ t.head?, c.isDigit = false

theorem ends_newline (depth : Nat) (t : Text) : Ends (newline depth ++ t) := by
  rintro c ⟨rfl⟩
  rfl

theorem readNumber_ofNat (n : Nat) {rest : Text} (hrest : Ends rest) :
    readNumber (Text.ofNat n ++ rest) = some (.nat n, rest) := by
  by_cases hn : n = 0
  · subst hn
    rfl
  · have hzero (u : Text) (hu : Text.ofNat n ++ rest = '0' :: u) : False := by
      have hhead : (Text.ofNat n ++ rest).head? = some '0' := by rw [hu]; rfl
      rw [List.head?_append_of_ne_nil _ (Text.ofNat_ne_nil n)] at hhead
      exact absurd hhead (Text.head?_ofNat hn)
    have hdigits : ∀ c ∈ Text.ofNat n, c.isDigit = true := fun c => Text.isDigit_of_mem_ofNat
    rw [readNumber.eq_2 _ hzero, Text.takeWhile_run hdigits hrest, Text.dropWhile_run hdigits hrest,
      Text.readNat_ofNat]
    rfl

/-- A digit starts no word, so it starts a number. -/
theorem readPlain_of_isDigit {c : Char} (hc : c.isDigit = true) (t : Text) :
    readPlain (c :: t) = readNumber (c :: t) := by
  have hword {w : Char} {ws : Text} (hw : w.isDigit = false) :
      (w :: ws).isPrefixOf? (c :: t) = none := by
    have hne : w ≠ c := by
      rintro rfl
      simp [hc] at hw
    simp [List.isPrefixOf?, hne]
  have hnull : "null".toList.isPrefixOf? (c :: t) = none := hword rfl
  have htrue : "true".toList.isPrefixOf? (c :: t) = none := hword rfl
  have hfalse : "false".toList.isPrefixOf? (c :: t) = none := hword rfl
  rw [readPlain, hnull, htrue, hfalse]

section
variable {fuel : Nat}

theorem readValue_quote (s rest : Text) :
    readValue (fuel + 1) (quote s ++ rest) = some (.text s, rest) := by
  have hskip : skip (quote s ++ rest) = '"' :: (s.flatMap escapeChar ++ '"' :: rest) := by
    rw [quote, List.cons_append, List.append_assoc]
    rfl
  rw [readValue, hskip]
  simp only [readString_quoted, Option.map_some]

theorem readValue_ofNat (n : Nat) {rest : Text} (hrest : Ends rest) :
    readValue (fuel + 1) (Text.ofNat n ++ rest) = some (.nat n, rest) := by
  have hnumber := readNumber_ofNat n hrest
  obtain ⟨c, t, ht⟩ := List.exists_cons_of_ne_nil (Text.ofNat_ne_nil n)
  have hc : c.isDigit = true := Text.isDigit_of_mem_ofNat (n := n) (by simp [ht])
  rw [ht, List.cons_append] at hnumber ⊢
  rw [readValue, skip_of_opens (opens_of_isDigit hc)]
  have hbare : c ≠ '"' ∧ c ≠ '[' ∧ c ≠ '\x7b' := by
    refine ⟨?_, ?_, ?_⟩ <;> rintro rfl <;> exact absurd hc (by decide)
  simp [hbare, readPlain_of_isDigit hc, hnumber]

/-! ### Items and fields -/

/-- A list with an item is read item by item. -/
theorem readValue_items {t u : Text} (h : skip t = u) (hu : u.head? ≠ some ']') :
    readValue (fuel + 1) ('[' :: t) =
      (readItems fuel u).map fun (xs, rest) => (.list xs, rest) := by
  have hskip : skip ('[' :: t) = '[' :: t := rfl
  rw [readValue, hskip]
  have hclose (v : Text) (hv : u = ']' :: v) : False := hu (by rw [hv]; rfl)
  simp only [h]

/-- The last item is followed by the closing bracket. -/
theorem readItems_last {x : Json} {t u rest : Text} (hx : readValue fuel t = some (x, u))
    (hu : skip u = ']' :: rest) : readItems (fuel + 1) t = some ([x], rest) := by
  rw [readItems, hx]
  simp only [hu]

theorem readItems_comma {x : Json} {t u : Text} (hx : readValue fuel t = some (x, ',' :: u)) :
    readItems (fuel + 1) t = (readItems fuel u).map fun (xs, rest) => (x :: xs, rest) := by
  have hskip : skip (',' :: u) = ',' :: u := rfl
  rw [readItems, hx]
  simp only [hskip]

/-- An object with a field is read field by field. -/
theorem readValue_fields {t k u : Text} (h : skip t = quote k ++ u) :
    readValue (fuel + 1) ('{' :: t) =
      (readFields fuel (quote k ++ u)).map fun (fs, rest) => (.object fs, rest) := by
  have hskip : skip ('{' :: t) = '{' :: t := rfl
  rw [readValue, hskip]
  simp only [h, quote, List.cons_append]
  rfl

theorem skip_key (k t : Text) :
    skip (quote k ++ ':' :: t) = '"' :: (k.flatMap escapeChar ++ '"' :: ':' :: t) := by
  rw [quote, List.cons_append, List.append_assoc]
  rfl

theorem skip_colon (t : Text) : skip (':' :: t) = ':' :: t := rfl

theorem readValue_blank (t : Text) : readValue fuel (' ' :: t) = readValue fuel t := by
  cases fuel with
  | zero => rfl
  | succ fuel => rfl

/-- The last field is followed by the closing brace. -/
theorem readFields_last {k t u rest : Text} {v : Json} (hv : readValue fuel t = some (v, u))
    (hu : skip u = '}' :: rest) :
    readFields (fuel + 1) (quote k ++ ':' :: ' ' :: t) = some ([(k, v)], rest) := by
  rw [readFields, skip_key]
  simp only [readString_quoted, skip_colon, readValue_blank, hv, hu]

theorem readFields_comma {k t u : Text} {v : Json} (hv : readValue fuel t = some (v, ',' :: u)) :
    readFields (fuel + 1) (quote k ++ ':' :: ' ' :: t) =
      (readFields fuel u).map fun (fs, rest) => ((k, v) :: fs, rest) := by
  have hskip : skip (',' :: u) = ',' :: u := rfl
  rw [readFields, skip_key]
  simp only [readString_quoted, skip_colon, readValue_blank, hv, hskip]

end

/-! ### Values -/

section
variable (depth : Nat) (t : Text)

theorem print_list (x : Json) (xs : List Json) :
    print depth (.list (x :: xs)) ++ t = '[' :: (newline (depth + 1) ++ (print (depth + 1) x ++
      (printItems (depth + 1) xs ++ (newline depth ++ ']' :: t)))) := by
  simp [print]

theorem printItems_cons (x : Json) (xs : List Json) :
    printItems depth (x :: xs) ++ t =
      ',' :: (newline depth ++ (print depth x ++ (printItems depth xs ++ t))) := by
  simp [printItems]

theorem print_object (k : Text) (v : Json) (fs : List (Text × Json)) :
    print depth (.object ((k, v) :: fs)) ++ t = '{' :: (newline (depth + 1) ++ (quote k ++
      ':' :: ' ' :: (print (depth + 1) v ++
        (printFields (depth + 1) fs ++ (newline depth ++ '}' :: t))))) := by
  simp [print]

theorem printFields_cons (k : Text) (v : Json) (fs : List (Text × Json)) :
    printFields depth ((k, v) :: fs) ++ t = ',' :: (newline depth ++ (quote k ++
      ':' :: ' ' :: (print depth v ++ (printFields depth fs ++ t)))) := by
  simp [printFields]

end

theorem ends_comma (t : Text) : Ends (',' :: t) := by
  rintro c ⟨rfl⟩
  rfl

mutual

theorem readValue_print : ∀ (v : Json) {depth fuel : Nat} {rest : Text},
    (print depth v).length ≤ fuel → Ends rest →
      readValue fuel (print depth v ++ rest) = some (v, rest)
  | v, depth, 0, rest, hfuel, _ => by
    obtain ⟨c, t, ht, -⟩ := print_opens depth v
    simp [ht] at hfuel
  | .null, _, fuel + 1, _, _, _ => rfl
  | .bool true, _, fuel + 1, _, _, _ => rfl
  | .bool false, _, fuel + 1, _, _, _ => rfl
  | .nat n, _, fuel + 1, rest, _, hrest => by
    rw [print]
    exact readValue_ofNat n hrest
  | .text s, _, fuel + 1, rest, _, _ => by
    rw [print]
    exact readValue_quote s rest
  | .list [], _, fuel + 1, _, _, _ => rfl
  | .object [], _, fuel + 1, _, _, _ => rfl
  | .list (x :: xs), depth, fuel + 1, rest, hfuel, hrest => by
    simp only [print, List.length_append, List.length_cons] at hfuel
    have hlen : (print (depth + 1) x).length + (printItems (depth + 1) xs).length < fuel := by
      omega
    have hclose : skip (newline depth ++ ']' :: rest) = ']' :: rest := skip_newline depth _
    have hitems := readItems_print x xs hlen hclose (ends_newline depth _)
    have hskip := (skip_newline (depth + 1) _).trans (skip_print (depth + 1) x
      (printItems (depth + 1) xs ++ (newline depth ++ ']' :: rest)))
    rw [print_list, readValue_items hskip (head?_print _ _ _), hitems]
    rfl
  | .object ((k, v) :: fs), depth, fuel + 1, rest, hfuel, hrest => by
    simp only [print, List.length_append, List.length_cons] at hfuel
    have hlen : (print (depth + 1) v).length + (printFields (depth + 1) fs).length < fuel := by
      omega
    have hclose : skip (newline depth ++ '}' :: rest) = '}' :: rest := skip_newline depth _
    have hfields := readFields_print k v fs hlen hclose (ends_newline depth _)
    rw [print_object, readValue_fields (skip_newline (depth + 1) _), hfields]
    rfl
termination_by v => sizeOf v

theorem readItems_print : ∀ (x : Json) (xs : List Json) {depth fuel : Nat} {close rest : Text},
    (print depth x).length + (printItems depth xs).length < fuel → skip close = ']' :: rest →
      Ends close →
      readItems fuel (print depth x ++ (printItems depth xs ++ close)) = some (x :: xs, rest)
  | _, _, _, 0, _, _, hfuel, _, _ => absurd hfuel (Nat.not_lt_zero _)
  | x, [], depth, fuel + 1, close, rest, hfuel, hclose, hend => by
    have hx := readValue_print x (by simpa [printItems, Nat.lt_succ_iff] using hfuel) hend
    exact readItems_last hx hclose
  | x, y :: ys, depth, fuel + 1, close, rest, hfuel, hclose, hend => by
    simp only [printItems, List.length_append, List.length_cons] at hfuel
    have hlen : (print depth x).length ≤ fuel := by omega
    have hlens : (print depth y).length + (printItems depth ys).length < fuel := by omega
    have hys := readItems_print y ys hlens hclose hend
    rw [printItems_cons, readItems_comma (readValue_print x hlen (ends_comma _)),
      readItems_newline, hys]
    rfl
termination_by x xs => sizeOf x + sizeOf xs

theorem readFields_print : ∀ (k : Text) (v : Json) (fs : List (Text × Json)) {depth fuel : Nat}
    {close rest : Text},
    (print depth v).length + (printFields depth fs).length < fuel → skip close = '}' :: rest →
      Ends close →
      readFields fuel (quote k ++
        ':' :: ' ' :: (print depth v ++ (printFields depth fs ++ close))) = some ((k, v) :: fs, rest)
  | _, _, _, _, 0, _, _, hfuel, _, _ => absurd hfuel (Nat.not_lt_zero _)
  | k, v, [], depth, fuel + 1, close, rest, hfuel, hclose, hend => by
    have hv := readValue_print v (by simpa [printFields, Nat.lt_succ_iff] using hfuel) hend
    exact readFields_last hv hclose
  | _, v, (l, w) :: fs, depth, fuel + 1, close, rest, hfuel, hclose, hend => by
    simp only [printFields, List.length_append, List.length_cons] at hfuel
    have hlen : (print depth v).length ≤ fuel := by omega
    have hlens : (print depth w).length + (printFields depth fs).length < fuel := by omega
    have hfs := readFields_print l w fs hlens hclose hend
    rw [printFields_cons, readFields_comma (readValue_print v hlen (ends_comma _)),
      readFields_newline, hfs]
    rfl
termination_by _ v fs => sizeOf v + sizeOf fs

end

/-- A printed value reads back. -/
theorem read_pretty (v : Json) : read (pretty v) = some v := by
  have hends : Ends [] := by simp [Ends]
  have hfuel : (print 0 v).length ≤ 2 * (pretty v).length + 2 := by
    rw [pretty]
    omega
  have hv := readValue_print v hfuel hends
  rw [List.append_nil, ← pretty] at hv
  rw [read, hv]
  rfl

end GherkinIndex.Json
