import GherkinIndex.Proofs.Text.Digits
import GherkinIndex.Proofs.Xml.Value

/-! What is written reads back.

    The reader takes one element after the declaration and nothing behind it. It stands for the
    part of XML that documents here are written in: elements and blanks between them, attributes in
    double quotes, no name twice in a tag, and every tag closed by itself or by one of its name.

        <report view="tag">                  open    name, attributes
          <feature name="a" />               closed  name, attributes
        </report>                            the name again                          -/

namespace GherkinIndex.Xml

/-! ### The reader -/

def isSpace (c : Char) : Bool := c == ' ' || isLayout c

/-- The rest after the blanks of the format. -/
def skip (t : Text) : Text := t.dropWhile isSpace

def isNameStart (c : Char) : Bool := c.isAlpha || c == '_' || c == ':'

def isNameChar (c : Char) : Bool := isNameStart c || c.isDigit || c == '-' || c == '.'

/-- A name, in ASCII. -/
def isName (t : Text) : Bool := t.head?.any isNameStart && t.all isNameChar

def readName (t : Text) : Option (Text × Text) :=
  if isName (t.takeWhile isNameChar) then
    some (t.takeWhile isNameChar, t.dropWhile isNameChar)
  else none

/-- The attributes up to the end of a tag, each after a blank; `fuel` is more than their number. -/
def readAttributes (m : Reading) : Nat → Text → Option (List Attribute × Text)
  | 0, _ => none
  | fuel + 1, t =>
    if (skip t).head? = some '/' ∨ (skip t).head? = some '>' then some ([], skip t)
    else if t.head?.any isSpace then
      match readName (skip t) with
      | some (name, '=' :: '"' :: t) => match readValue m none t with
        | none => none
        | some (value, t) => match readAttributes m fuel t with
          | none => none
          | some (as, rest) =>
            if as.any (·.name = name) then none else some (⟨name, value⟩ :: as, rest)
      | _ => none
    else none

mutual

/-- An element at the front of a text; `fuel` bounds the calls. -/
def readElement (m : Reading) : Nat → Text → Option (Element × Text)
  | fuel + 1, '<' :: t => match readName t with
    | none => none
    | some (name, t) => match readAttributes m fuel t with
      | some (as, '/' :: '>' :: rest) => some (⟨name, as, []⟩, rest)
      | some (as, '>' :: t) => match readContent m fuel t with
        | some (es, t) => match readName t with
          | some (closing, '>' :: rest) =>
            if closing = name then some (⟨name, as, es⟩, rest) else none
          | _ => none
        | none => none
      | _ => none
  | _, _ => none

/-- The elements up to a closing tag; the rest starts with its name. -/
def readContent (m : Reading) : Nat → Text → Option (List Element × Text)
  | 0, _ => none
  | fuel + 1, t => match skip t with
    | '<' :: '/' :: rest => some ([], rest)
    | t => match readElement m fuel t with
      | none => none
      | some (e, t) => (readContent m fuel t).map fun (es, rest) => (e :: es, rest)

end

/-- What a document starts with. -/
def prolog : Text := "<?xml version=\"1.0\" encoding=\"UTF-8\"?>".toList

/-- The element of a document whose line ends are line feeds if they have to be. -/
def readDocument (m : Reading) (t : Text) : Option Element :=
  match prolog.isPrefixOf? t with
  | none => none
  | some t => match readElement m (t.length + 1) (skip t) with
    | none => none
    | some (root, rest) => if (skip rest).isEmpty then some root else none

def read (m : Reading) (t : Text) : Option Element := readDocument m (m.prepared t)

/-! ### What is read -/

/-- The names of a tag. -/
structure Named (name : Text) (attributes : List Attribute) : Prop where
  tag : isName name = true
  each : ∀ a ∈ attributes, isName a.name = true
  distinct : (attributes.map (·.name)).Nodup

mutual

/-- All names in an element are names of the format. -/
def Element.WellNamed : Element → Prop
  | ⟨name, attributes, children⟩ => Named name attributes ∧ AllWellNamed children

def AllWellNamed : List Element → Prop
  | [] => True
  | e :: es => e.WellNamed ∧ AllWellNamed es

end

def Attribute.mapValue (f : Text → Text) (a : Attribute) : Attribute := ⟨a.name, f a.value⟩

mutual

/-- The element with all values changed. -/
def Element.mapValues (f : Text → Text) : Element → Element
  | ⟨name, attributes, children⟩ => ⟨name, attributes.map (·.mapValue f), mapAllValues f children⟩

def mapAllValues (f : Text → Text) : List Element → List Element
  | [] => []
  | e :: es => e.mapValues f :: mapAllValues f es

end

/-! ### Names -/

theorem isNameChar_of_mem {name : Text} (hname : isName name = true) {c : Char} (hc : c ∈ name) :
    isNameChar c = true := by
  rw [isName, Bool.and_eq_true, List.all_eq_true] at hname
  exact hname.2 c hc

/-- A name ends where a character follows that is none of a name. -/
theorem readName_append {name : Text} (hname : isName name = true) {c : Char}
    (hc : isNameChar c = false) (t : Text) : readName (name ++ c :: t) = some (name, c :: t) := by
  have hchars : ∀ d ∈ name, isNameChar d = true := fun d => isNameChar_of_mem hname
  have hend : ∀ d ∈ (c :: t).head?, isNameChar d = false := by
    rintro d ⟨rfl⟩
    exact hc
  rw [readName, Text.takeWhile_run hchars hend, Text.dropWhile_run hchars hend, if_pos hname]

theorem return_not_mem_name {name : Text} (hname : isName name = true) : '\r' ∉ name :=
  fun hmem => absurd (isNameChar_of_mem hname hmem) (by decide)

theorem name_eq_cons {name : Text} (hname : isName name = true) :
    ∃ c t, name = c :: t ∧ isNameStart c = true := by
  cases name with
  | nil => simp [isName] at hname
  | cons c t =>
    rw [isName, Bool.and_eq_true] at hname
    exact ⟨c, t, rfl, by simpa using hname.1⟩

/-! ### Blanks -/

theorem skip_cons {c : Char} (hc : isSpace c = true) (t : Text) : skip (c :: t) = skip t :=
  List.dropWhile_cons_of_pos hc

theorem skip_indent (depth : Nat) (t : Text) : skip (indent depth ++ t) = skip t := by
  rw [skip, List.dropWhile_append_of_pos, skip]
  intro c hc
  rw [List.eq_of_mem_replicate hc]
  rfl

theorem isSpace_of_isNameStart {c : Char} (hc : isNameStart c = true) : isSpace c = false := by
  rw [Bool.eq_false_iff]
  intro hspace
  have hcases : c = ' ' ∨ c = '\t' ∨ c = '\n' ∨ c = '\r' := by
    simpa [isSpace, isLayout, or_assoc] using hspace
  rcases hcases with rfl | rfl | rfl | rfl <;> exact absurd hc (by decide)

/-! ### Attributes -/

section
variable {m : Reading} {fuel : Nat}

/-- Behind a blank, a name starts an attribute. -/
theorem readAttributes_cons {a : Attribute} (hname : isName a.name = true) {t rest : Text}
    {as : List Attribute} (has : readAttributes m fuel t = some (as, rest))
    (hnew : a.name ∉ as.map (·.name)) :
    readAttributes m (fuel + 1) (writeAttribute a ++ t) =
      some (a.mapValue (·.map m.receives) :: as, rest) := by
  obtain ⟨c, u, hcons, hc⟩ := name_eq_cons hname
  have hwritten : writeAttribute a ++ t = ' ' :: (a.name ++ '=' :: '"' ::
      (escape a.value ++ '"' :: t)) := by
    simp [writeAttribute]
  have hskip : skip (writeAttribute a ++ t) = a.name ++ '=' :: '"' ::
      (escape a.value ++ '"' :: t) := by
    rw [hwritten, skip_cons rfl, hcons]
    exact List.dropWhile_cons_of_neg (by simp [isSpace_of_isNameStart hc])
  have hopen : ¬ ((skip (writeAttribute a ++ t)).head? = some '/' ∨
      (skip (writeAttribute a ++ t)).head? = some '>') := by
    rw [hskip, hcons, List.cons_append, List.head?_cons, Option.some.injEq, Option.some.injEq]
    rintro (rfl | rfl) <;> exact absurd hc (by decide)
  have hfresh : as.any (fun b => decide (b.name = a.name)) = false := by
    simpa using hnew
  rw [readAttributes, if_neg hopen, hskip, readName_append hname rfl, hwritten]
  simp only [readValue_escape, has, hfresh]
  rfl

/-- The attributes of a tag read back up to the end of the tag. -/
theorem readAttributes_write {rest u : Text} (hrest : skip rest = u)
    (hu : u.head? = some '/' ∨ u.head? = some '>') {as : List Attribute}
    (hnames : ∀ a ∈ as, isName a.name = true) (hdistinct : (as.map (·.name)).Nodup)
    (hlen : as.length < fuel) :
    readAttributes m fuel (as.flatMap writeAttribute ++ rest) =
      some (as.map (·.mapValue (·.map m.receives)), u) := by
  induction as generalizing fuel with
  | nil =>
    cases fuel with
    | zero => simp at hlen
    | succ fuel => rw [List.flatMap_nil, List.nil_append, readAttributes, hrest, if_pos hu]; rfl
  | cons a as ih =>
    cases fuel with
    | zero => simp at hlen
    | succ fuel =>
      rw [List.map_cons, List.nodup_cons] at hdistinct
      have has := ih (fun b hb => hnames b (List.mem_cons_of_mem a hb)) hdistinct.2
        (Nat.lt_of_succ_lt_succ hlen)
      have hnew : a.name ∉ (as.map (·.mapValue (·.map m.receives))).map (·.name) := by
        simpa [Attribute.mapValue] using hdistinct.1
      rw [List.flatMap_cons, List.append_assoc,
        readAttributes_cons (hnames a List.mem_cons_self) has hnew]
      rfl

/-! ### Elements -/

theorem length_le_writeAttributes (as : List Attribute) :
    as.length ≤ (as.flatMap writeAttribute).length := by
  induction as with
  | nil => exact Nat.zero_le _
  | cons a as ih =>
    rw [List.flatMap_cons, List.length_append, List.length_cons, writeAttribute]
    simp only [List.length_append, List.length_cons]
    omega

/-- The name of a tag ends at the first blank or at the end of the tag. -/
theorem readName_head {name : Text} (hname : isName name = true) (as : List Attribute) {c : Char}
    (hc : isNameChar c = false) (t : Text) :
    readName (name ++ (as.flatMap writeAttribute ++ c :: t)) =
      some (name, as.flatMap writeAttribute ++ c :: t) := by
  cases as with
  | nil => exact readName_append hname hc t
  | cons a as => exact readName_append hname rfl _

section
variable {name : Text} {as : List Attribute} (h : Named name as) (hlen : as.length < fuel)
include h hlen

theorem readElement_closed (t : Text) :
    readElement m (fuel + 1) (writeHead name as ++ ' ' :: '/' :: '>' :: t) =
      some (⟨name, as.map (·.mapValue (·.map m.receives)), []⟩, t) := by
  have hskip : skip (' ' :: '/' :: '>' :: t) = '/' :: '>' :: t := rfl
  have hname := readName_head h.tag as (c := ' ') rfl ('/' :: '>' :: t)
  have has := readAttributes_write (m := m) hskip (.inl rfl) h.each h.distinct hlen
  rw [writeHead, List.append_assoc, List.cons_append, readElement, hname]
  simp only [has]

theorem readElement_open {es : List Element} {t rest : Text}
    (hes : readContent m fuel t = some (es, name ++ '>' :: rest)) :
    readElement m (fuel + 1) (writeHead name as ++ '>' :: t) =
      some (⟨name, as.map (·.mapValue (·.map m.receives)), es⟩, rest) := by
  have hskip : skip ('>' :: t) = '>' :: t := rfl
  have hname := readName_head h.tag as (c := '>') rfl t
  have has := readAttributes_write (m := m) hskip (.inr rfl) h.each h.distinct hlen
  have hclosing := readName_append h.tag (c := '>') rfl rest
  rw [writeHead, List.append_assoc, List.cons_append, readElement, hname]
  simp only [has, hes, hclosing, if_true]

end

/-! ### Content -/

theorem readContent_close {t rest : Text} (h : skip t = '<' :: '/' :: rest) :
    readContent m (fuel + 1) t = some ([], rest) := by
  simp only [readContent, h]

/-- What reads as an element is no closing tag. -/
theorem readContent_cons {e : Element} {es : List Element} {t u rest : Text}
    (he : readElement m fuel (skip t) = some (e, u)) (hes : readContent m fuel u = some (es, rest)) :
    readContent m (fuel + 1) t = some (e :: es, rest) := by
  -- a slash starts no name, so there would be no element here
  have hclosed (v : Text) : readElement m fuel ('<' :: '/' :: v) = none := by
    cases fuel with
    | zero => rfl
    | succ fuel => rfl
  have hopen (v : Text) (hv : skip t = '<' :: '/' :: v) : False := by
    rw [hv, hclosed] at he
    contradiction
  simp only [readContent, he, hes, Option.map_some]

theorem readContent_space {c : Char} (hc : isSpace c = true) (t : Text) :
    readContent m fuel (c :: t) = readContent m fuel t := by
  cases fuel with
  | zero => rfl
  | succ fuel => rw [readContent, readContent, skip_cons hc]

end

section
variable (depth : Nat) (name : Text) (as : List Attribute) (rest : Text)

theorem write_closed : write depth ⟨name, as, []⟩ ++ rest =
    indent depth ++ (writeHead name as ++ ' ' :: '/' :: '>' :: '\n' :: rest) := by
  simp [write]

theorem write_open (e : Element) (es : List Element) : write depth ⟨name, as, e :: es⟩ ++ rest =
    indent depth ++ (writeHead name as ++ '>' :: '\n' :: (writeAll (depth + 1) (e :: es) ++
      (indent depth ++ '<' :: '/' :: (name ++ '>' :: '\n' :: rest)))) := by
  simp [write, writeAll]

theorem skip_writeHead :
    skip (indent depth ++ (writeHead name as ++ rest)) = writeHead name as ++ rest := by
  rw [skip_indent]
  rfl

theorem length_write_closed : as.length + 2 ≤ (write depth ⟨name, as, []⟩).length := by
  have has := length_le_writeAttributes as
  have hwrite := congrArg List.length (write_closed depth name as [])
  simp only [List.append_nil, writeHead, List.length_append, List.length_cons] at hwrite
  omega

theorem length_write_open (e : Element) (es : List Element) :
    as.length + (writeAll (depth + 1) (e :: es)).length + 2 ≤
      (write depth ⟨name, as, e :: es⟩).length := by
  have has := length_le_writeAttributes as
  have hwrite := congrArg List.length (write_open depth name as [] e es)
  simp only [List.append_nil, writeHead, List.length_append, List.length_cons] at hwrite
  omega

end

theorem length_write_pos (depth : Nat) (e : Element) : 0 < (write depth e).length := by
  obtain ⟨name, as, children⟩ := e
  cases children with
  | nil => exact Nat.lt_of_lt_of_le (by omega) (length_write_closed depth name as)
  | cons c cs => exact Nat.lt_of_lt_of_le (by omega) (length_write_open depth name as c cs)

mutual

/-- A written element reads back up to the end of its line. -/
theorem readElement_write (m : Reading) : ∀ (e : Element) {depth fuel : Nat} {rest : Text},
    e.WellNamed → (write depth e).length ≤ fuel →
      readElement m fuel (skip (write depth e ++ rest)) =
        some (e.mapValues (·.map m.receives), '\n' :: rest)
  | e, depth, 0, _, _, hlen => absurd (length_write_pos depth e) (by omega)
  | ⟨name, as, []⟩, depth, fuel + 1, rest, h, hlen => by
    have hfuel := length_write_closed depth name as
    rw [write_closed, skip_writeHead]
    exact readElement_closed h.1 (by omega) _
  | ⟨name, as, c :: cs⟩, depth, fuel + 1, rest, h, hlen => by
    have hfuel := length_write_open depth name as c cs
    have hlens : (writeAll (depth + 1) (c :: cs)).length < fuel := by omega
    have hclose : skip (indent depth ++ '<' :: '/' :: (name ++ '>' :: '\n' :: rest)) =
        '<' :: '/' :: (name ++ '>' :: '\n' :: rest) := skip_indent depth _
    have hcontent := readContent_writeAll m (c :: cs) h.2 hlens hclose
    rw [write_open, skip_writeHead]
    exact readElement_open h.1 (by omega) ((readContent_space rfl _).trans hcontent)
termination_by e => sizeOf e

/-- Written elements read back up to the closing tag behind them. -/
theorem readContent_writeAll (m : Reading) : ∀ (es : List Element) {depth fuel : Nat}
    {close rest : Text}, AllWellNamed es → (writeAll depth es).length < fuel →
      skip close = '<' :: '/' :: rest →
      readContent m fuel (writeAll depth es ++ close) =
        some (mapAllValues (·.map m.receives) es, rest)
  | _, _, 0, _, _, _, hlen, _ => absurd hlen (Nat.not_lt_zero _)
  | [], _, fuel + 1, _, _, _, _, hclose => readContent_close hclose
  | e :: es, depth, fuel + 1, close, rest, h, hlen, hclose => by
    have hpos := length_write_pos depth e
    rw [writeAll, List.length_append] at hlen
    have hfirst : (write depth e).length ≤ fuel := by omega
    have hothers : (writeAll depth es).length < fuel := by omega
    have hes := readContent_writeAll m es h.2 hothers hclose
    rw [writeAll, List.append_assoc]
    exact readContent_cons (readElement_write m e h.1 hfirst) ((readContent_space rfl _).trans hes)
termination_by es => sizeOf es

end

/-! ### Line ends -/

theorem lineEnds_writeAttributes {as : List Attribute} (hnames : ∀ a ∈ as, isName a.name = true)
    (t : Text) :
    lineEnds (as.flatMap writeAttribute ++ t) =
      (as.map (·.mapValue lineEnds)).flatMap writeAttribute ++ lineEnds t := by
  induction as with
  | nil => rfl
  | cons a as ih =>
    have hopen : '\r' ∉ ' ' :: a.name ++ ['=', '"'] := by
      simp [return_not_mem_name (hnames a List.mem_cons_self)]
    have has := ih fun b hb => hnames b (List.mem_cons_of_mem a hb)
    calc lineEnds ((a :: as).flatMap writeAttribute ++ t)
        = lineEnds ((' ' :: a.name ++ ['=', '"']) ++
            (escape a.value ++ '"' :: (as.flatMap writeAttribute ++ t))) := by
          simp [writeAttribute]
      _ = (' ' :: a.name ++ ['=', '"']) ++ (escape (lineEnds a.value) ++
            '"' :: ((as.map (·.mapValue lineEnds)).flatMap writeAttribute ++ lineEnds t)) := by
          rw [lineEnds_append hopen, lineEnds_escape, has]
      _ = ((a :: as).map (·.mapValue lineEnds)).flatMap writeAttribute ++ lineEnds t := by
          simp [writeAttribute, Attribute.mapValue]

theorem lineEnds_writeHead {name : Text} {as : List Attribute} (h : Named name as) (t : Text) :
    lineEnds (writeHead name as ++ t) =
      writeHead name (as.map (·.mapValue lineEnds)) ++ lineEnds t := by
  have hopen : '\r' ∉ '<' :: name := by simp [return_not_mem_name h.tag]
  rw [writeHead, List.append_assoc, lineEnds_append hopen, lineEnds_writeAttributes h.each,
    writeHead, List.append_assoc]

theorem return_not_mem_indent (depth : Nat) : '\r' ∉ indent depth := by
  simp [indent]

theorem lineEnds_closing {name : Text} (hname : isName name = true) (t : Text) :
    lineEnds ('<' :: '/' :: (name ++ '>' :: '\n' :: t)) =
      '<' :: '/' :: (name ++ '>' :: '\n' :: lineEnds t) := by
  have hclosing : '\r' ∉ '<' :: '/' :: (name ++ ['>', '\n']) := by
    simp [return_not_mem_name hname]
  simpa using lineEnds_append hclosing t

mutual

/-- Turning line ends into line feeds changes nothing but the values. -/
theorem lineEnds_write : ∀ (e : Element) {depth : Nat} {t : Text}, e.WellNamed →
    lineEnds (write depth e ++ t) = write depth (e.mapValues lineEnds) ++ lineEnds t
  | ⟨name, as, []⟩, depth, t, h => by
    rw [write_closed, lineEnds_append (return_not_mem_indent depth), lineEnds_writeHead h.1,
      Element.mapValues, mapAllValues, write_closed]
    rfl
  | ⟨name, as, c :: cs⟩, depth, t, h => by
    have hindent := return_not_mem_indent depth
    rw [write_open, lineEnds_append hindent, lineEnds_writeHead h.1, lineEnds_cons (by decide),
      lineEnds_cons (by decide), lineEnds_writeAll (c :: cs) h.2, lineEnds_append hindent,
      lineEnds_closing h.1.tag, Element.mapValues, mapAllValues, write_open]
termination_by e => sizeOf e

theorem lineEnds_writeAll : ∀ (es : List Element) {depth : Nat} {t : Text}, AllWellNamed es →
    lineEnds (writeAll depth es ++ t) = writeAll depth (mapAllValues lineEnds es) ++ lineEnds t
  | [], _, _, _ => rfl
  | e :: es, depth, t, h => by
    rw [writeAll, List.append_assoc, lineEnds_write e h.1, lineEnds_writeAll es h.2, mapAllValues,
      writeAll, List.append_assoc]
termination_by es => sizeOf es

end

/-! ### Documents -/

theorem document_eq (root : Element) : document root = prolog ++ '\n' ::
    (writeHead root.name root.attributes ++ '>' :: '\n' :: (writeAll 1 root.children ++
      '<' :: '/' :: (root.name ++ '>' :: '\n' :: []))) := by
  have hdeclaration : declaration = prolog ++ ['\n'] := rfl
  rw [document, hdeclaration]
  simp only [List.append_assoc]
  rfl

theorem lineEnds_document {root : Element} (h : root.WellNamed) :
    lineEnds (document root) = document (root.mapValues lineEnds) := by
  obtain ⟨name, as, children⟩ := root
  have hprolog : '\r' ∉ prolog := by decide
  rw [document_eq, lineEnds_append hprolog, lineEnds_cons (by decide), lineEnds_writeHead h.1,
    lineEnds_cons (by decide), lineEnds_cons (by decide), lineEnds_writeAll children h.2,
    lineEnds_closing h.1.tag, document_eq]
  rfl

/-- The root of a document reads back, whether or not it has children. -/
theorem readElement_root (m : Reading) {name : Text} {as : List Attribute} {es : List Element}
    (h : Named name as) (hes : AllWellNamed es) {fuel : Nat} (hlen : as.length < fuel)
    (hlens : (writeAll 1 es).length < fuel) :
    readElement m (fuel + 1) (writeHead name as ++ '>' :: '\n' :: (writeAll 1 es ++
      '<' :: '/' :: (name ++ '>' :: '\n' :: []))) =
        some (Element.mapValues (·.map m.receives) ⟨name, as, es⟩, ['\n']) := by
  have hclose : skip ('<' :: '/' :: (name ++ '>' :: '\n' :: [])) =
      '<' :: '/' :: (name ++ '>' :: '\n' :: []) := rfl
  have hcontent := readContent_writeAll m es hes hlens hclose
  have hspace : isSpace '\n' = true := rfl
  exact readElement_open h hlen ((readContent_space hspace _).trans hcontent)

/-- A document reads back once its line ends are as they are read. -/
theorem readDocument_document (m : Reading) : ∀ {root : Element}, root.WellNamed →
    readDocument m (document root) = some (root.mapValues (·.map m.receives))
  | ⟨name, as, es⟩, h => by
    have hprolog : ∀ t, prolog.isPrefixOf? (prolog ++ t) = some t :=
      fun t => List.isPrefixOf?_eq_some_iff_append_eq.2 rfl
    have hskip : ∀ t, skip ('\n' :: (writeHead name as ++ t)) = writeHead name as ++ t :=
      fun t => rfl
    have has := length_le_writeAttributes as
    rw [document_eq, readDocument, hprolog]
    simp only [hskip]
    rw [readElement_root m h.1 h.2]
    · rfl
    · simp only [writeHead, List.length_cons, List.length_append]
      omega
    · simp only [writeHead, List.length_cons, List.length_append]
      omega

mutual

theorem mapValues_mapValues (f g : Text → Text) : ∀ e : Element,
    (e.mapValues f).mapValues g = e.mapValues (g ∘ f)
  | ⟨name, as, children⟩ => by
    simp only [Element.mapValues, List.map_map, mapAllValues_mapAllValues f g children]
    rfl

theorem mapAllValues_mapAllValues (f g : Text → Text) : ∀ es : List Element,
    mapAllValues g (mapAllValues f es) = mapAllValues (g ∘ f) es
  | [] => rfl
  | e :: es => by
    rw [mapAllValues, mapAllValues, mapAllValues, mapValues_mapValues f g e,
      mapAllValues_mapAllValues f g es]

end

mutual

theorem wellNamed_mapValues (f : Text → Text) : ∀ {e : Element},
    e.WellNamed → (e.mapValues f).WellNamed
  | ⟨_, _, _⟩, h => by
    refine ⟨⟨h.1.tag, ?_, ?_⟩, allWellNamed_mapAllValues f h.2⟩
    · intro a ha
      obtain ⟨b, hb, rfl⟩ := List.mem_map.1 ha
      exact h.1.each b hb
    · simpa [Attribute.mapValue, Function.comp_def] using h.1.distinct

theorem allWellNamed_mapAllValues (f : Text → Text) : ∀ {es : List Element},
    AllWellNamed es → AllWellNamed (mapAllValues f es)
  | [], _ => trivial
  | _ :: _, h => ⟨wellNamed_mapValues f h.1, allWellNamed_mapAllValues f h.2⟩

end

/-- A document reads back, each value as its reader receives it. A conforming reader sees the
    document with its line ends turned, which is another document that was written. -/
theorem read_document (m : Reading) {root : Element} (h : root.WellNamed) :
    read m (document root) = some (root.mapValues m.received) := by
  cases m with
  | literal => exact readDocument_document .literal h
  | conforming =>
    rw [read, Reading.prepared, lineEnds_document h,
      readDocument_document .conforming (wellNamed_mapValues lineEnds h), mapValues_mapValues]
    rfl

example : (read .literal (prolog ++ "<a><b></a></b>".toList)).isNone = true := by decide +kernel

end GherkinIndex.Xml
