import GherkinIndex.Report.Basic
import GherkinIndex.Xml.Element

/-! Reports as XML elements.

    An element is named after the kind of its node and carries the text as `name`. Failed files
    follow the features; the view by tag nests features in tags. -/

namespace GherkinIndex.Report

def attr (name : String) (value : Text) : Xml.Attribute := ⟨name.toList, value⟩

def numberAttribute (number : Option Nat) : List Xml.Attribute :=
  number.toList.map fun n => attr "number" (Text.ofNat n)

def fileAttribute (path : Option Text) : List Xml.Attribute :=
  path.toList.map (attr "file")

def tagsAttribute (tags : TagSet) : List Xml.Attribute :=
  if tags.isEmpty then [] else [attr "tags" tags.spaced]

mutual

def nodeElement : Node → Xml.Element
  | ⟨kind, text, tags, path, number, _, children⟩ =>
    { name := kind.label
      attributes := attr "name" text :: fileAttribute path ++ numberAttribute number ++
        tagsAttribute tags
      children := nodeElements children }

def nodeElements : List Node → List Xml.Element
  | [] => []
  | n :: ns => nodeElement n :: nodeElements ns

end

def failureElement (f : Failure) : Xml.Element where
  name := "failure".toList
  attributes :=
    [attr "file" f.path] ++ (f.line.toList.map fun n => attr "line" (Text.ofNat n)) ++
      [attr "message" f.message]

def scenarioElement (s : TaggedScenario) : Xml.Element where
  name := s.kind.label
  attributes := attr "name" s.text :: numberAttribute s.number

def taggedElement (f : TaggedFeature) : Xml.Element where
  name := "feature".toList
  attributes := attr "name" f.text :: fileAttribute f.path
  children := f.scenarios.map scenarioElement

def tagElement (t : Tag) (features : List TaggedFeature) : Xml.Element where
  name := "tag".toList
  attributes := [attr "name" t]
  children := features.map taggedElement

/-- The root element of a document in a view. -/
def rootElement (view : View) (children : List Xml.Element) : Xml.Element where
  name := "report".toList
  attributes := [attr "view" view.label]
  children := children

def featureMarkup (r : Report) : Xml.Element :=
  rootElement .feature (nodeElements r.features ++ r.failures.map failureElement)

def tagMarkup (index : TagIndex) : Xml.Element :=
  rootElement .tag (index.groups.map fun (t, features) => tagElement t features)

end GherkinIndex.Report
