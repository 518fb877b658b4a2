import GherkinIndex.Feature.Parse
import GherkinIndex.Proofs.Report.Document
import GherkinIndex.Proofs.Xml.RoundTrip

/-! An XML report tells all that it shows.

    An element is turned back into what it stands for by its name and its attributes; an attribute
    that is not there stands for a value that is not there. What comes back is the report as it is
    shown, its texts as the reader receives them.

        report                                       Shown
        Scenario: a & b  [@x, @y]   two of them      scenario, "Scenario: a & b", 2, "@x @y"    -/

namespace GherkinIndex

/-! ### What is shown -/

/-- What an element shows of a node. -/
structure Shown where
  kind : Kind
  name : Text
  file : Option Text
  number : Option Nat
  /-- The tags with blanks between them, if there are any. -/
  tags : Option Text
  children : List Shown

mutual

/-- A node as it is shown, its texts changed by `f`. -/
def Node.shown (f : Text → Text) : Node → Shown
  | ⟨kind, text, tags, path, number, _, children⟩ =>
    { kind, number
      name := f text
      file := path.map f
      tags := if tags.isEmpty then none else some (f tags.spaced)
      children := shownAll f children }

def shownAll (f : Text → Text) : List Node → List Shown
  | [] => []
  | n :: ns => n.shown f :: shownAll f ns

end

structure ShownReport where
  features : List Shown
  failures : List Failure

def Failure.mapTexts (f : Text → Text) (e : Failure) : Failure := ⟨f e.path, e.line, f e.message⟩

def Report.shown (f : Text → Text) (r : Report) : ShownReport :=
  ⟨shownAll f r.features, r.failures.map (·.mapTexts f)⟩

def TaggedScenario.mapTexts (f : Text → Text) (s : TaggedScenario) : TaggedScenario :=
  ⟨s.kind, f s.text, s.number⟩

def TaggedFeature.mapTexts (f : Text → Text) (t : TaggedFeature) : TaggedFeature :=
  ⟨f t.text, t.path.map f, t.scenarios.map (·.mapTexts f)⟩

def TagIndex.mapTexts (f : Text → Text) (index : TagIndex) : TagIndex :=
  ⟨index.groups.map fun (t, features) => (f t, features.map (·.mapTexts f))⟩

/-! ### Reading elements -/

namespace Xml

/-- The value of the attribute with a name. -/
def value? (key : String) (as : List Attribute) : Option Text :=
  (as.find? (·.name = key.toList)).map (·.value)

/-- The number in an attribute that may be left out. -/
def number? (key : String) (as : List Attribute) : Option (Option Nat) :=
  match value? key as with
  | none => some none
  | some t => (Text.readNat t).map some

end Xml

mutual

def Shown.ofElement? : Xml.Element → Option Shown
  | ⟨name, as, es⟩ => do
    let kind ← Kind.ofLabel? name
    let name ← Xml.value? "name" as
    let number ← Xml.number? "number" as
    let children ← shownAll? es
    return { kind, name, number, children, file := Xml.value? "file" as, tags := Xml.value? "tags" as }

def shownAll? : List Xml.Element → Option (List Shown)
  | [] => some []
  | e :: es => do return (← Shown.ofElement? e) :: (← shownAll? es)

end

/-- Whether an element stands for a failed file. -/
def Xml.Element.isFailure (e : Xml.Element) : Bool := e.name = "failure".toList

def Failure.ofElement? : Xml.Element → Option Failure
  | ⟨name, as, []⟩ =>
    if name = "failure".toList then do
      return ⟨← Xml.value? "file" as, ← Xml.number? "line" as, ← Xml.value? "message" as⟩
    else none
  | _ => none

/-- The report in a root element: features, and failures after all of them. -/
def ShownReport.ofRoot? : Xml.Element → Option ShownReport
  | ⟨name, as, es⟩ =>
    if name = "report".toList ∧ Xml.value? "view" as = some "feature".toList then do
      let features ← shownAll? (es.takeWhile (!·.isFailure))
      let failures ← (es.dropWhile (!·.isFailure)).mapM Failure.ofElement?
      return ⟨features, failures⟩
    else none

def TaggedScenario.ofElement? : Xml.Element → Option TaggedScenario
  | ⟨name, as, []⟩ => do
    return ⟨← Kind.ofLabel? name, ← Xml.value? "name" as, ← Xml.number? "number" as⟩
  | _ => none

def TaggedFeature.ofElement? : Xml.Element → Option TaggedFeature
  | ⟨name, as, es⟩ =>
    if name = "feature".toList then do
      let text ← Xml.value? "name" as
      let scenarios ← es.mapM TaggedScenario.ofElement?
      return ⟨text, Xml.value? "file" as, scenarios⟩
    else none

/-- A tag and the features under it. -/
def taggedGroup? : Xml.Element → Option (Tag × List TaggedFeature)
  | ⟨name, as, es⟩ =>
    if name = "tag".toList then do
      return (← Xml.value? "name" as, ← es.mapM TaggedFeature.ofElement?)
    else none

/-- The index in a root element. -/
def TagIndex.ofRoot? : Xml.Element → Option TagIndex
  | ⟨name, as, es⟩ =>
    if name = "report".toList ∧ Xml.value? "view" as = some "tag".toList then
      (es.mapM taggedGroup?).map TagIndex.mk
    else none

namespace Report

/-! ### Attributes -/

theorem value?_map (f : Text → Text) (key : String) (as : List Xml.Attribute) :
    Xml.value? key (as.map (·.mapValue f)) = (Xml.value? key as).map f := by
  rw [Xml.value?, Xml.value?, List.find?_map, Option.map_map, Option.map_map]
  rfl

/-- A number is read as it was written by a reader that leaves digits alone. -/
theorem number?_map {f : Text → Text} (hf : ∀ n, f (Text.ofNat n) = Text.ofNat n) {key : String}
    {as : List Xml.Attribute} {number : Option Nat}
    (h : Xml.value? key as = number.map Text.ofNat) :
    Xml.number? key (as.map (·.mapValue f)) = some number := by
  rw [Xml.number?, value?_map, h]
  cases number with
  | none => rfl
  | some n => simp [hf, Text.readNat_ofNat]

section
variable (text : Text) (tags : TagSet) (path : Option Text) (number : Option Nat)

/-- The attributes of a node. -/
def nodeAttributes : List Xml.Attribute :=
  attr "name" text :: fileAttribute path ++ numberAttribute number ++ tagsAttribute tags

theorem value?_nodeAttributes :
    Xml.value? "name" (nodeAttributes text tags path number) = some text ∧
    Xml.value? "file" (nodeAttributes text tags path number) = path ∧
    Xml.value? "number" (nodeAttributes text tags path number) = number.map Text.ofNat ∧
    Xml.value? "tags" (nodeAttributes text tags path number) =
      if tags.isEmpty then none else some tags.spaced := by
  unfold nodeAttributes tagsAttribute
  cases path <;> cases number <;> split <;> exact ⟨rfl, rfl, rfl, rfl⟩

end

theorem value?_view {f : Text → Text} (hview : ∀ v : View, f v.label = v.label) (v : View) :
    Xml.value? "view" ([attr "view" v.label].map (·.mapValue f)) = some v.label :=
  congrArg some (hview v)

/-- A digit can be written and is no layout. -/
theorem plain_of_isDigit {c : Char} (hc : c.isDigit = true) :
    Xml.isChar c = true ∧ Xml.isLayout c = false := by
  have hrange : 48 ≤ c.toNat ∧ c.toNat ≤ 57 := by
    simpa [Char.isDigit, UInt32.le_iff_toNat_le] using hc
  refine ⟨by simp [Xml.isChar]; omega, Bool.eq_false_iff.2 fun hlayout => ?_⟩
  have hcases : c = '\t' ∨ c = '\n' ∨ c = '\r' := by
    simpa [Xml.isLayout, or_assoc] using hlayout
  rcases hcases with rfl | rfl | rfl <;> simp at hrange

theorem received_ofNat (m : Xml.Reading) (n : Nat) : m.received (Text.ofNat n) = Text.ofNat n :=
  Xml.received_of_plain m fun _ hc => plain_of_isDigit (Text.isDigit_of_mem_ofNat hc)

/-! ### Names -/

/-- The attributes that a report uses. -/
def attributeNames : List Text :=
  ["name", "file", "number", "tags", "line", "message", "view"].map (·.toList)

theorem named_of_sublist {name : Text} {as : List Xml.Attribute} (hname : Xml.isName name = true)
    (has : (as.map (·.name)).Sublist attributeNames) : Xml.Named name as where
  tag := hname
  each := by
    have hall : ∀ t ∈ attributeNames, Xml.isName t = true := by decide
    exact fun a ha => hall a.name (has.subset (List.mem_map_of_mem ha))
  distinct := has.nodup (by decide)

theorem isName_label (k : Kind) : Xml.isName k.label = true := by
  cases k <;> decide

theorem named_nodeAttributes (kind : Kind) (text : Text) (tags : TagSet) (path : Option Text)
    (number : Option Nat) : Xml.Named kind.label (nodeAttributes text tags path number) := by
  refine named_of_sublist (isName_label kind) (List.isSublist_iff_sublist.1 ?_)
  unfold nodeAttributes tagsAttribute
  cases path <;> cases number <;> split <;> rfl

theorem allWellNamed_iff {es : List Xml.Element} :
    Xml.AllWellNamed es ↔ ∀ e ∈ es, e.WellNamed := by
  induction es with
  | nil => simp [Xml.AllWellNamed]
  | cons e es ih => simp [Xml.AllWellNamed, ih]

mutual

theorem wellNamed_nodeElement : ∀ n : Node, (nodeElement n).WellNamed
  | ⟨kind, text, tags, path, number, _, children⟩ =>
    ⟨named_nodeAttributes kind text tags path number, allWellNamed_nodeElements children⟩

theorem allWellNamed_nodeElements : ∀ ns : List Node, Xml.AllWellNamed (nodeElements ns)
  | [] => trivial
  | n :: ns => ⟨wellNamed_nodeElement n, allWellNamed_nodeElements ns⟩

end

theorem wellNamed_failureElement (e : Failure) : (failureElement e).WellNamed := by
  obtain ⟨path, line, message⟩ := e
  refine ⟨named_of_sublist (by decide) (List.isSublist_iff_sublist.1 ?_), trivial⟩
  cases line <;> rfl

theorem wellNamed_scenarioElement (s : TaggedScenario) : (scenarioElement s).WellNamed := by
  obtain ⟨kind, text, number⟩ := s
  refine ⟨named_of_sublist (isName_label kind) (List.isSublist_iff_sublist.1 ?_), trivial⟩
  cases number <;> rfl

theorem wellNamed_taggedElement (f : TaggedFeature) : (taggedElement f).WellNamed := by
  obtain ⟨text, path, scenarios⟩ := f
  refine ⟨named_of_sublist (by decide) (List.isSublist_iff_sublist.1 ?_), ?_⟩
  · cases path <;> rfl
  · exact allWellNamed_iff.2 (List.forall_mem_map.2 fun s _ => wellNamed_scenarioElement s)

theorem wellNamed_tagElement (t : Tag) (features : List TaggedFeature) :
    (tagElement t features).WellNamed :=
  ⟨named_of_sublist (by decide) (List.isSublist_iff_sublist.1 rfl),
    allWellNamed_iff.2 (List.forall_mem_map.2 fun f _ => wellNamed_taggedElement f)⟩

theorem wellNamed_rootElement (view : View) {es : List Xml.Element} (h : Xml.AllWellNamed es) :
    (rootElement view es).WellNamed :=
  ⟨named_of_sublist (by decide) (List.isSublist_iff_sublist.1 rfl), h⟩

theorem wellNamed_featureMarkup (r : Report) : r.featureMarkup.WellNamed := by
  refine wellNamed_rootElement .feature (allWellNamed_iff.2 fun e he => ?_)
  rcases List.mem_append.1 he with hnode | hfailure
  · exact allWellNamed_iff.1 (allWellNamed_nodeElements r.features) e hnode
  · obtain ⟨failure, -, rfl⟩ := List.mem_map.1 hfailure
    exact wellNamed_failureElement failure

theorem wellNamed_tagMarkup (index : TagIndex) : (tagMarkup index).WellNamed :=
  wellNamed_rootElement .tag
    (allWellNamed_iff.2 (List.forall_mem_map.2 fun g _ => wellNamed_tagElement g.1 g.2))

/-! ### Elements read back -/

theorem mapAllValues_eq_map (f : Text → Text) (es : List Xml.Element) :
    Xml.mapAllValues f es = es.map (·.mapValues f) := by
  induction es with
  | nil => rfl
  | cons e es ih => rw [Xml.mapAllValues, ih, List.map_cons]

theorem nodeElements_eq_map (ns : List Node) : nodeElements ns = ns.map nodeElement := by
  induction ns with
  | nil => rfl
  | cons n ns ih => rw [nodeElements, ih, List.map_cons]

theorem isFailure_nodeElement (f : Text → Text) (n : Node) :
    ((nodeElement n).mapValues f).isFailure = false := by
  obtain ⟨kind, _, _, _, _, _, _⟩ := n
  cases kind <;> rfl

/-- Failures begin where the nodes end. -/
theorem nodes_before_failures (f : Text → Text) (r : Report) :
    (∀ e ∈ Xml.mapAllValues f (nodeElements r.features), (!e.isFailure) = true) ∧
      ∀ e ∈ (Xml.mapAllValues f (r.failures.map failureElement)).head?,
        (!e.isFailure) = false := by
  rw [mapAllValues_eq_map, mapAllValues_eq_map, nodeElements_eq_map, List.map_map, List.map_map]
  constructor
  · intro e he
    obtain ⟨n, -, rfl⟩ := List.mem_map.1 he
    simp [isFailure_nodeElement]
  · intro e he
    obtain ⟨failure, -, rfl⟩ := List.mem_map.1 (List.mem_of_mem_head? he)
    rfl

theorem mapM_mapAllValues {α β : Type} {f : Text → Text} {g : α → Xml.Element}
    {h : Xml.Element → Option β} {k : α → β} (hg : ∀ a, h ((g a).mapValues f) = some (k a))
    (as : List α) : (Xml.mapAllValues f (as.map g)).mapM h = some (as.map k) := by
  rw [mapAllValues_eq_map, List.map_map]
  exact mapM_map_some hg as

section
variable {f : Text → Text}

mutual

theorem ofElement?_nodeElement (hf : ∀ n, f (Text.ofNat n) = Text.ofNat n) : ∀ n : Node,
    Shown.ofElement? ((nodeElement n).mapValues f) = some (n.shown f)
  | ⟨kind, text, tags, path, number, _, children⟩ => by
    obtain ⟨hname, hfile, hnumber, htags⟩ := value?_nodeAttributes text tags path number
    have hcount := number?_map hf hnumber
    have hchildren := shownAll?_nodeElements hf children
    rw [nodeElement, Xml.Element.mapValues, Shown.ofElement?, ← nodeAttributes]
    simp only [value?_map, hname, hfile, htags, hcount, hchildren, ofLabel?_label, Node.shown]
    cases tags.isEmpty <;> rfl

theorem shownAll?_nodeElements (hf : ∀ n, f (Text.ofNat n) = Text.ofNat n) : ∀ ns : List Node,
    shownAll? (Xml.mapAllValues f (nodeElements ns)) = some (shownAll f ns)
  | [] => rfl
  | n :: ns => by
    rw [nodeElements, Xml.mapAllValues, shownAll?, ofElement?_nodeElement hf n,
      shownAll?_nodeElements hf ns]
    rfl

end

variable (hf : ∀ n, f (Text.ofNat n) = Text.ofNat n)
include hf

theorem ofElement?_failureElement (e : Failure) :
    Failure.ofElement? ((failureElement e).mapValues f) = some (e.mapTexts f) := by
  obtain ⟨path, line, message⟩ := e
  have hvalues : Xml.value? "file" (failureElement ⟨path, line, message⟩).attributes = some path ∧
      Xml.value? "line" (failureElement ⟨path, line, message⟩).attributes =
        line.map Text.ofNat ∧
      Xml.value? "message" (failureElement ⟨path, line, message⟩).attributes = some message := by
    cases line <;> exact ⟨rfl, rfl, rfl⟩
  obtain ⟨hfile, hline, hmessage⟩ := hvalues
  have hnumber := number?_map hf hline
  rw [failureElement] at hfile hmessage hnumber ⊢
  simp only [Xml.Element.mapValues, Xml.mapAllValues, Failure.ofElement?, value?_map, hfile,
    hmessage, hnumber, if_true]
  rfl

theorem ofElement?_scenarioElement (s : TaggedScenario) :
    TaggedScenario.ofElement? ((scenarioElement s).mapValues f) = some (s.mapTexts f) := by
  obtain ⟨kind, text, number⟩ := s
  have hvalues : Xml.value? "name" (scenarioElement ⟨kind, text, number⟩).attributes = some text ∧
      Xml.value? "number" (scenarioElement ⟨kind, text, number⟩).attributes =
        number.map Text.ofNat := by
    cases number <;> exact ⟨rfl, rfl⟩
  obtain ⟨hname, hnumber⟩ := hvalues
  have hcount := number?_map hf hnumber
  rw [scenarioElement] at hname hcount ⊢
  simp only [Xml.Element.mapValues, Xml.mapAllValues, TaggedScenario.ofElement?, value?_map,
    ofLabel?_label, hname, hcount]
  rfl

theorem ofElement?_taggedElement (t : TaggedFeature) :
    TaggedFeature.ofElement? ((taggedElement t).mapValues f) = some (t.mapTexts f) := by
  obtain ⟨text, path, scenarios⟩ := t
  have hvalues : Xml.value? "name" (taggedElement ⟨text, path, scenarios⟩).attributes = some text ∧
      Xml.value? "file" (taggedElement ⟨text, path, scenarios⟩).attributes = path := by
    cases path <;> exact ⟨rfl, rfl⟩
  obtain ⟨hname, hfile⟩ := hvalues
  have hscenarios := mapM_mapAllValues (ofElement?_scenarioElement hf) scenarios
  rw [taggedElement] at hname hfile ⊢
  simp only [Xml.Element.mapValues, TaggedFeature.ofElement?, value?_map, hname, hfile, if_true,
    hscenarios]
  rfl

theorem taggedGroup?_tagElement (group : Tag × List TaggedFeature) :
    taggedGroup? ((tagElement group.1 group.2).mapValues f) =
      some (f group.1, group.2.map (·.mapTexts f)) := by
  have hname : Xml.value? "name" [attr "name" group.1] = some group.1 := rfl
  have hfeatures := mapM_mapAllValues (ofElement?_taggedElement hf) group.2
  rw [tagElement]
  simp only [Xml.Element.mapValues, taggedGroup?, value?_map, hname, if_true, hfeatures]
  rfl

variable (hview : ∀ v : View, f v.label = v.label)
include hview

theorem ofRoot?_featureMarkup (r : Report) :
    ShownReport.ofRoot? (r.featureMarkup.mapValues f) = some (r.shown f) := by
  obtain ⟨hnodes, hrest⟩ := nodes_before_failures f r
  have hfeatures := shownAll?_nodeElements hf r.features
  have hfailures := mapM_mapAllValues (ofElement?_failureElement hf) r.failures
  have hlabel := value?_view hview .feature
  have hchildren : Xml.mapAllValues f (nodeElements r.features ++
      r.failures.map failureElement) = Xml.mapAllValues f (nodeElements r.features) ++
        Xml.mapAllValues f (r.failures.map failureElement) := by
    simp only [mapAllValues_eq_map, List.map_append]
  rw [featureMarkup, rootElement, Xml.Element.mapValues, ShownReport.ofRoot?,
    if_pos ⟨rfl, hlabel⟩, hchildren, Text.takeWhile_run hnodes hrest,
    Text.dropWhile_run hnodes hrest, hfeatures]
  simp only [hfailures]
  rfl

theorem ofRoot?_tagMarkup (index : TagIndex) :
    TagIndex.ofRoot? ((tagMarkup index).mapValues f) = some (index.mapTexts f) := by
  have hgroups := mapM_mapAllValues (taggedGroup?_tagElement hf) index.groups
  have hlabel := value?_view hview .tag
  rw [tagMarkup, rootElement, Xml.Element.mapValues, TagIndex.ofRoot?, if_pos ⟨rfl, hlabel⟩]
  exact congrArg (Option.map TagIndex.mk) hgroups

end

/-! ### Reports read back -/

theorem received_label (m : Xml.Reading) (v : View) : m.received v.label = v.label := by
  cases m <;> cases v <;> decide

theorem read_featureMarkup (m : Xml.Reading) (r : Report) :
    (Xml.read m (r.render .xml .feature)).bind ShownReport.ofRoot? =
      some (r.shown m.received) := by
  rw [render, Xml.read_document m (wellNamed_featureMarkup r), Option.bind_some,
    ofRoot?_featureMarkup (received_ofNat m) (received_label m)]

theorem read_tagMarkup (m : Xml.Reading) (index : TagIndex) :
    (Xml.read m (Xml.document (tagMarkup index))).bind TagIndex.ofRoot? =
      some (index.mapTexts m.received) := by
  rw [Xml.read_document m (wellNamed_tagMarkup index), Option.bind_some,
    ofRoot?_tagMarkup (received_ofNat m) (received_label m)]

/-- CORRECT (XML documents): an XML document is well formed and is read literally as what was
    reported, but for characters that no document can hold. No text of the report ends its value
    or opens a tag. -/
theorem xml_reads_back :
    (∀ r : Report, (Xml.read .literal (r.render .xml .feature)).bind ShownReport.ofRoot? =
      some (r.shown Xml.cleaned)) ∧
    (∀ index : TagIndex, (Xml.read .literal (Xml.document (tagMarkup index))).bind
      TagIndex.ofRoot? = some (index.mapTexts Xml.cleaned)) ∧
    (∀ r : Report, (Xml.read .literal (r.render .xml .tag)).bind TagIndex.ofRoot? =
      some ((TagIndex.build r.features).mapTexts Xml.cleaned)) ∧
    (∀ t, ∀ c ∈ Xml.escape t, c ≠ '"' ∧ c ≠ '<' ∧ c ≠ '>') :=
  ⟨read_featureMarkup .literal, read_tagMarkup .literal,
    fun r => read_tagMarkup .literal (TagIndex.build r.features), fun _ _ => Xml.escape_closed⟩

/-- CORRECT (XML documents, attribute normalisation): a conforming reader gets a text as it is
    exactly if every character may stand in a document and none is a tab, a line feed or a carriage
    return. Of a report it gets the texts with a blank for each of these, a carriage return and the
    line feed behind it counting as one. -/
theorem conforming_reader_receives (s : Text) (r : Report) :
    (Xml.readValue .conforming none (Xml.lineEnds (Xml.escape s ++ ['"'])) = some (s, []) ↔
      ∀ c ∈ s, Xml.isChar c = true ∧ Xml.isLayout c = false) ∧
    Xml.readValue .conforming none (Xml.lineEnds (Xml.escape s ++ ['"'])) =
      some ((Xml.lineEnds s).map Xml.Reading.conforming.receives, []) ∧
    (Xml.read .conforming (r.render .xml .feature)).bind ShownReport.ofRoot? =
      some (r.shown Xml.Reading.conforming.received) :=
  ⟨Xml.readValue_conforming_iff s, Xml.readValue_prepared .conforming s [],
    read_featureMarkup .conforming r⟩

/-- A feature with one scenario. -/
def titled (title : Text) : Node where
  kind := .feature
  text := "Feature: f".toList
  tags := .empty
  children := [{ kind := .scenario, text := title, tags := .empty, numbered := true }]

def tabbedFile : Text := "Feature: f\n  Scenario: a\tb\n".toList

def blankFile : Text := "Feature: f\n  Scenario: a b\n".toList

theorem parse_tabbedFile :
    (parse .unfiltered none tabbedFile).result = .ok (titled "Scenario: a\tb".toList) := rfl

theorem parse_blankFile :
    (parse .unfiltered none blankFile).result = .ok (titled "Scenario: a b".toList) := rfl

/-- A conforming reader gets the title with the tab as the one with the blank. -/
theorem readValue_tabbed : Xml.readValue .conforming none
    (Xml.lineEnds (Xml.escape "Scenario: a\tb".toList ++ ['"'])) =
      some ("Scenario: a b".toList, []) := by decide

theorem received_tabbed : Xml.Reading.conforming.received "Scenario: a\tb".toList =
    Xml.Reading.conforming.received "Scenario: a b".toList := by decide

/-- Two titles that differ by a tab are one title to a conforming reader. -/
theorem tab_received_as_blank :
    let tabbed := "Scenario: a\tb".toList
    let blank := "Scenario: a b".toList
    (∀ c ∈ tabbed, Xml.isChar c = true) ∧ tabbed ≠ blank ∧
    Xml.readValue .conforming none (Xml.lineEnds (Xml.escape tabbed ++ ['"'])) =
      some (blank, []) ∧
    (parse .unfiltered none tabbedFile).result = .ok (titled tabbed) ∧
    (parse .unfiltered none blankFile).result = .ok (titled blank) ∧
    (Xml.read .conforming (render .xml .feature ⟨[titled tabbed], []⟩)).bind
        ShownReport.ofRoot? =
      (Xml.read .conforming (render .xml .feature ⟨[titled blank], []⟩)).bind
        ShownReport.ofRoot? := by
  intro tabbed blank
  have hshown : (titled tabbed).shown Xml.Reading.conforming.received =
      (titled blank).shown Xml.Reading.conforming.received := by
    simp only [titled, Node.shown, shownAll, tabbed, blank, received_tabbed]
  have htabbed := read_featureMarkup .conforming ⟨[titled tabbed], []⟩
  have hblank := read_featureMarkup .conforming ⟨[titled blank], []⟩
  refine ⟨List.all_eq_true.1 (by decide), by decide, readValue_tabbed, parse_tabbedFile,
    parse_blankFile, htabbed.trans (Eq.trans ?_ hblank.symm)⟩
  simp only [shown, shownAll, hshown]

end Report
end GherkinIndex
