import GherkinIndex.Json.Value
import GherkinIndex.Report.Basic

/-! Reports as JSON values.

    Fields stand in a fixed order. A path, a number, a line or children that are not there have no
    field. -/

namespace GherkinIndex.Report

/-- A field if there is a value for it. -/
def optional {α : Type} (key : String) (f : α → Json) : Option α → List (Text × Json)
  | none => []
  | some a => [(key.toList, f a)]

mutual

def nodeJson : Node → Json
  | ⟨kind, text, tags, path, number, _, children⟩ =>
    .object ([("kind".toList, .text kind.label), ("display_text".toList, .text text),
        ("tags".toList, .list (tags.toList.map .text))] ++
      optional "file_path" .text path ++ optional "sequence_number" .nat number ++
      match children with
      | [] => []
      | c :: cs => [("children".toList, .list (nodeJson c :: nodesJson cs))])

def nodesJson : List Node → List Json
  | [] => []
  | n :: ns => nodeJson n :: nodesJson ns

end

def failureJson (f : Failure) : Json :=
  .object ([("path".toList, .text f.path)] ++ optional "line" .nat f.line ++
    [("message".toList, .text f.message)])

def scenarioJson (s : TaggedScenario) : Json :=
  .object ([("kind".toList, .text s.kind.label), ("display_text".toList, .text s.text)] ++
    optional "sequence_number" .nat s.number)

def taggedJson (f : TaggedFeature) : Json :=
  .object ([("display_text".toList, .text f.text)] ++ optional "file_path" .text f.path ++
    [("scenarios".toList, .list (f.scenarios.map scenarioJson))])

def featureDocument (r : Report) : Json :=
  .object [("features".toList, .list (nodesJson r.features)),
    ("failures".toList, .list (r.failures.map failureJson))]

def tagDocument (index : TagIndex) : Json :=
  .object [("tags".toList,
    .object (index.groups.map fun (t, features) => (t, .list (features.map taggedJson))))]

end GherkinIndex.Report
