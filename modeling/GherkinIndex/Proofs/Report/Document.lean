import GherkinIndex.Proofs.Json.RoundTrip
import GherkinIndex.Report.Render

/-! A JSON report tells all of its report.

    A reader of documents looks fields up by their keys. A path, a number or a line without a field
    is not there, and neither are children. What it finds is the report that was written, but for
    one thing a document does not show: whether a node takes a number from its siblings. -/

namespace GherkinIndex

/-! ### Reading values -/

namespace Json

def text? : Json → Option Text
  | .text t => some t
  | _ => none

def nat? : Json → Option Nat
  | .nat n => some n
  | _ => none

/-- A list whose items are read by `f`. -/
def listOf? {α : Type} (f : Json → Option α) : Json → Option (List α)
  | .list xs => xs.mapM f
  | _ => none

/-- The value of the first field with a key. -/
def field? {α : Type} (key : String) (f : Json → Option α) (fs : List (Text × Json)) : Option α :=
  (fs.lookup key.toList).bind f

/-- The value of a field that may be left out. -/
def optional? {α : Type} (key : String) (f : Json → Option α) (fs : List (Text × Json)) :
    Option (Option α) :=
  match fs.lookup key.toList with
  | none => some none
  | some v => (f v).map some

end Json

/-- The kind with a label. -/
def Kind.ofLabel? (t : Text) : Option Kind :=
  [Kind.feature, .scenario, .outline, .examples, .row].find? (·.label = t)

def Kind.ofJson? (v : Json) : Option Kind := v.text?.bind ofLabel?

mutual

def Node.ofJson? : Json → Option Node
  | .object fs => do
    let kind ← Json.field? "kind" Kind.ofJson? fs
    let text ← Json.field? "display_text" Json.text? fs
    let tags ← Json.field? "tags" (Json.listOf? Json.text?) fs
    let path ← Json.optional? "file_path" Json.text? fs
    let number ← Json.optional? "sequence_number" Json.nat? fs
    let children ← childrenOf? fs
    return { kind, text, tags := ⟨tags⟩, path, number, children }
  | _ => none

/-- The children of the first field that holds some; none if there is no such field. -/
def childrenOf? : List (Text × Json) → Option (List Node)
  | [] => some []
  | (key, v) :: fs => if key = "children".toList then nodesOf? v else childrenOf? fs

def nodesOf? : Json → Option (List Node)
  | .list xs => itemsOf? xs
  | _ => none

def itemsOf? : List Json → Option (List Node)
  | [] => some []
  | x :: xs => do return (← Node.ofJson? x) :: (← itemsOf? xs)

end

def Failure.ofJson? : Json → Option Failure
  | .object fs => do
    let path ← Json.field? "path" Json.text? fs
    let line ← Json.optional? "line" Json.nat? fs
    let message ← Json.field? "message" Json.text? fs
    return ⟨path, line, message⟩
  | _ => none

/-- The report of a document by feature. -/
def Report.ofDocument? : Json → Option Report
  | .object fs => do
    let features ← Json.field? "features" nodesOf? fs
    let failures ← Json.field? "failures" (Json.listOf? Failure.ofJson?) fs
    return ⟨features, failures⟩
  | _ => none

def TaggedScenario.ofJson? : Json → Option TaggedScenario
  | .object fs => do
    let kind ← Json.field? "kind" Kind.ofJson? fs
    let text ← Json.field? "display_text" Json.text? fs
    let number ← Json.optional? "sequence_number" Json.nat? fs
    return ⟨kind, text, number⟩
  | _ => none

def TaggedFeature.ofJson? : Json → Option TaggedFeature
  | .object fs => do
    let text ← Json.field? "display_text" Json.text? fs
    let path ← Json.optional? "file_path" Json.text? fs
    let scenarios ← Json.field? "scenarios" (Json.listOf? TaggedScenario.ofJson?) fs
    return ⟨text, path, scenarios⟩
  | _ => none

/-- The group in the field of a tag. -/
def groupOfJson? (field : Text × Json) : Option (Tag × List TaggedFeature) := do
  let features ← field.2.listOf? TaggedFeature.ofJson?
  return (field.1, features)

/-- The groups of an object with a field for each tag. -/
def TagIndex.ofJson? : Json → Option TagIndex
  | .object fs => (fs.mapM groupOfJson?).map TagIndex.mk
  | _ => none

/-- The index of a document by tag. -/
def TagIndex.ofDocument? : Json → Option TagIndex
  | .object fs => Json.field? "tags" TagIndex.ofJson? fs
  | _ => none

/-! ### What a document does not show -/

mutual

/-- The node and everything below it as if no node took a number from its siblings. -/
def Node.unflagged : Node → Node
  | ⟨kind, text, tags, path, number, _, children⟩ =>
    ⟨kind, text, tags, path, number, false, unflaggedAll children⟩

def unflaggedAll : List Node → List Node
  | [] => []
  | n :: ns => n.unflagged :: unflaggedAll ns

end

def Report.unflagged (r : Report) : Report := { r with features := unflaggedAll r.features }

/-! ### Reading what was written -/

namespace Report

theorem text?_text (t : Text) : Json.text? (.text t) = some t := rfl

theorem nat?_nat (n : Nat) : Json.nat? (.nat n) = some n := rfl

theorem ofLabel?_label (k : Kind) : Kind.ofLabel? k.label = some k := by
  cases k <;> rfl

theorem ofJson?_label (k : Kind) : Kind.ofJson? (.text k.label) = some k := ofLabel?_label k

/-- Items that can each be read can be read together. -/
theorem mapM_map_some {α β γ : Type} {f : β → Option γ} {g : α → β} {k : α → γ}
    (h : ∀ a, f (g a) = some (k a)) (as : List α) : (as.map g).mapM f = some (as.map k) := by
  have hf : f ∘ g = fun a => pure (k a) := funext h
  rw [List.mapM_map, hf, List.mapM_pure]
  rfl

theorem listOf?_map {α : Type} {f : Json → Option α} {g : α → Json} (h : ∀ a, f (g a) = some a)
    (as : List α) : Json.listOf? f (.list (as.map g)) = some as := by
  rw [Json.listOf?, mapM_map_some (k := id) h, List.map_id]

section Fields

variable {α β : Type} {f : Json → Option α} {key other : String} {fs : List (Text × Json)}

theorem field?_self (v : Json) : Json.field? key f ((key.toList, v) :: fs) = f v := by
  simp [Json.field?]

theorem lookup_of_ne (h : key.toList ≠ other.toList) (v : Json) :
    ((other.toList, v) :: fs).lookup key.toList = fs.lookup key.toList := by
  rw [List.lookup_cons, beq_eq_false_iff_ne.mpr h]

theorem lookup_optional_of_ne (h : key.toList ≠ other.toList) (g : β → Json) (b : Option β) :
    (optional other g b ++ fs).lookup key.toList = fs.lookup key.toList := by
  cases b with
  | none => rfl
  | some b => exact lookup_of_ne h (g b)

theorem field?_of_ne (h : key.toList ≠ other.toList) (v : Json) :
    Json.field? key f ((other.toList, v) :: fs) = Json.field? key f fs := by
  rw [Json.field?, lookup_of_ne h, Json.field?]

theorem field?_optional_of_ne (h : key.toList ≠ other.toList) (g : β → Json) (b : Option β) :
    Json.field? key f (optional other g b ++ fs) = Json.field? key f fs := by
  rw [Json.field?, lookup_optional_of_ne h, Json.field?]

theorem optional?_of_ne (h : key.toList ≠ other.toList) (v : Json) :
    Json.optional? key f ((other.toList, v) :: fs) = Json.optional? key f fs := by
  rw [Json.optional?, lookup_of_ne h, Json.optional?]

theorem optional?_optional_of_ne (h : key.toList ≠ other.toList) (g : β → Json) (b : Option β) :
    Json.optional? key f (optional other g b ++ fs) = Json.optional? key f fs := by
  rw [Json.optional?, lookup_optional_of_ne h, Json.optional?]

/-- A field that may be left out is read as it was written if no later field has its key. -/
theorem optional?_optional {g : α → Json} (hg : ∀ a, f (g a) = some a) (a : Option α)
    (hfs : fs.lookup key.toList = none) :
    Json.optional? key f (optional key g a ++ fs) = some a := by
  cases a with
  | none => simp [Json.optional?, optional, hfs]
  | some a => simp [Json.optional?, optional, hg]

theorem childrenOf?_of_ne (h : other.toList ≠ "children".toList) (v : Json) :
    childrenOf? ((other.toList, v) :: fs) = childrenOf? fs := by
  rw [childrenOf?, if_neg h]

theorem childrenOf?_optional_of_ne (h : other.toList ≠ "children".toList) (g : β → Json)
    (b : Option β) : childrenOf? (optional other g b ++ fs) = childrenOf? fs := by
  cases b with
  | none => rfl
  | some b => exact childrenOf?_of_ne h (g b)

end Fields

/-- The fields of a node are read back whatever field of children follows them. -/
theorem ofJson?_fields (kind : Kind) (text : Text) (tags : TagSet) (path : Option Text)
    (number : Option Nat) {fs : List (Text × Json)} {children : List Node}
    (hPath : fs.lookup "file_path".toList = none)
    (hNumber : fs.lookup "sequence_number".toList = none)
    (hChildren : childrenOf? fs = some children) :
    Node.ofJson? (.object ([("kind".toList, .text kind.label), ("display_text".toList, .text text),
        ("tags".toList, .list (tags.toList.map .text))] ++
      optional "file_path" .text path ++ optional "sequence_number" .nat number ++ fs)) =
      some ⟨kind, text, tags, path, number, false, children⟩ := by
  have hTags : Json.listOf? Json.text? (.list (tags.toList.map .text)) = some tags.toList :=
    listOf?_map text?_text _
  have hRest :
      (optional "sequence_number" Json.nat number ++ fs).lookup "file_path".toList = none :=
    (lookup_optional_of_ne (by decide) _ _).trans hPath
  simp (disch := decide) only [Node.ofJson?, List.append_assoc, List.cons_append, List.nil_append,
    field?_self, field?_of_ne, optional?_of_ne, optional?_optional_of_ne,
    childrenOf?_of_ne, childrenOf?_optional_of_ne, hChildren, hTags]
  rw [optional?_optional text?_text _ hRest, optional?_optional nat?_nat _ hNumber]
  simp [ofJson?_label, text?_text]

mutual

theorem ofJson?_nodeJson : ∀ n : Node, Node.ofJson? (nodeJson n) = some n.unflagged
  | ⟨kind, text, tags, path, number, _, []⟩ =>
    ofJson?_fields kind text tags path number rfl rfl rfl
  | ⟨kind, text, tags, path, number, _, c :: cs⟩ => by
    have hChildren : childrenOf? [("children".toList, .list (nodeJson c :: nodesJson cs))] =
        some (unflaggedAll (c :: cs)) := by
      simp only [childrenOf?, if_pos, nodesOf?, itemsOf?, ofJson?_nodeJson c,
        itemsOf?_nodesJson cs]
      rfl
    exact ofJson?_fields kind text tags path number (lookup_of_ne (by decide) _)
      (lookup_of_ne (by decide) _) hChildren

theorem itemsOf?_nodesJson : ∀ ns : List Node, itemsOf? (nodesJson ns) = some (unflaggedAll ns)
  | [] => rfl
  | n :: ns => by
    rw [nodesJson, itemsOf?, ofJson?_nodeJson n, itemsOf?_nodesJson ns]
    rfl

end

theorem ofJson?_failureJson (e : Failure) : Failure.ofJson? (failureJson e) = some e := by
  have hLine : Json.optional? "line" Json.nat? (optional "line" .nat e.line ++
      [("message".toList, .text e.message)]) = some e.line :=
    optional?_optional nat?_nat e.line (lookup_of_ne (by decide) _)
  simp (disch := decide) only [failureJson, Failure.ofJson?, List.cons_append,
    List.nil_append, field?_self, field?_optional_of_ne, field?_of_ne, optional?_of_ne, hLine]
  rfl

theorem ofJson?_scenarioJson (s : TaggedScenario) :
    TaggedScenario.ofJson? (scenarioJson s) = some s := by
  have hNumber : Json.optional? "sequence_number" Json.nat?
      (optional "sequence_number" .nat s.number) = some s.number := by
    rw [← List.append_nil (optional _ _ _), optional?_optional nat?_nat s.number rfl]
  simp (disch := decide) only [scenarioJson, TaggedScenario.ofJson?, List.cons_append,
    List.nil_append, field?_self, field?_of_ne, optional?_of_ne, hNumber, ofJson?_label]
  rfl

theorem ofJson?_taggedJson (f : TaggedFeature) : TaggedFeature.ofJson? (taggedJson f) = some f := by
  have hPath : Json.optional? "file_path" Json.text? (optional "file_path" .text f.path ++
      [("scenarios".toList, .list (f.scenarios.map scenarioJson))]) = some f.path :=
    optional?_optional text?_text f.path (lookup_of_ne (by decide) _)
  simp (disch := decide) only [taggedJson, TaggedFeature.ofJson?,
    List.cons_append, List.nil_append, field?_self, field?_optional_of_ne, field?_of_ne,
    optional?_of_ne, hPath, listOf?_map ofJson?_scenarioJson]
  rfl

theorem ofDocument?_featureDocument (r : Report) :
    ofDocument? r.featureDocument = some r.unflagged := by
  have hFeatures : nodesOf? (.list (nodesJson r.features)) = some (unflaggedAll r.features) :=
    itemsOf?_nodesJson r.features
  simp (disch := decide) only [featureDocument, ofDocument?, field?_self, field?_of_ne, hFeatures,
    listOf?_map ofJson?_failureJson]
  rfl

theorem groupOfJson?_group (group : Tag × List TaggedFeature) :
    groupOfJson? (group.1, .list (group.2.map taggedJson)) = some group := by
  rw [groupOfJson?, listOf?_map ofJson?_taggedJson]
  rfl

theorem ofDocument?_tagDocument (index : TagIndex) :
    TagIndex.ofDocument? (tagDocument index) = some index := by
  have hGroups := mapM_map_some (k := id) groupOfJson?_group index.groups
  rw [List.map_id] at hGroups
  rw [tagDocument, TagIndex.ofDocument?, field?_self, TagIndex.ofJson?]
  exact congrArg (Option.map TagIndex.mk) hGroups

/-! ### What two equal documents share -/

mutual

theorem nodeJson_unflagged : ∀ n : Node, nodeJson n.unflagged = nodeJson n
  | ⟨_, _, _, _, _, _, []⟩ => rfl
  | ⟨_, _, _, _, _, _, c :: cs⟩ => by
    rw [Node.unflagged, unflaggedAll, nodeJson, nodeJson, nodeJson_unflagged c,
      nodesJson_unflaggedAll cs]

theorem nodesJson_unflaggedAll : ∀ ns : List Node, nodesJson (unflaggedAll ns) = nodesJson ns
  | [] => rfl
  | n :: ns => by
    rw [unflaggedAll, nodesJson, nodesJson, nodeJson_unflagged n, nodesJson_unflaggedAll ns]

end

theorem featureDocument_unflagged (r : Report) :
    r.unflagged.featureDocument = r.featureDocument := by
  rw [featureDocument, featureDocument, unflagged, nodesJson_unflaggedAll]

theorem read_render_feature (r : Report) :
    (Json.read (r.render .json .feature)).bind ofDocument? = some r.unflagged := by
  rw [render, Json.read_pretty, Option.bind_some, ofDocument?_featureDocument]

theorem render_feature_eq_iff (r r' : Report) :
    r.render .json .feature = r'.render .json .feature ↔ r.unflagged = r'.unflagged := by
  constructor
  · intro h
    have hRead := congrArg (fun t => (Json.read t).bind ofDocument?) h
    simpa only [read_render_feature, Option.some.injEq] using hRead
  · intro h
    simp only [render]
    rw [← featureDocument_unflagged r, h, featureDocument_unflagged r']

theorem read_tagDocument (index : TagIndex) :
    (Json.read (tagDocument index).pretty).bind TagIndex.ofDocument? = some index := by
  rw [Json.read_pretty, Option.bind_some, ofDocument?_tagDocument]

/-- CORRECT (JSON documents): a JSON document is valid and is read as what was reported. Read by
    feature it is the report itself, less what a document does not show, and the documents of two
    reports are equal only if the reports differ in nothing else; read by tag it is the index. -/
theorem json_reads_back :
    (∀ r : Report, (Json.read (r.render .json .feature)).bind ofDocument? = some r.unflagged) ∧
    (∀ r r' : Report,
      r.render .json .feature = r'.render .json .feature ↔ r.unflagged = r'.unflagged) ∧
    (∀ index : TagIndex,
      (Json.read (tagDocument index).pretty).bind TagIndex.ofDocument? = some index) ∧
    (∀ r : Report, (Json.read (r.render .json .tag)).bind TagIndex.ofDocument? =
      some (TagIndex.build r.features)) :=
  ⟨read_render_feature, render_feature_eq_iff, read_tagDocument,
    fun r => read_tagDocument (TagIndex.build r.features)⟩

end Report
end GherkinIndex
