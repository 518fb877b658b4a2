import GherkinIndex.Node

/-! Where is a tag used?

    The index lists, under each tag, the features that use it and, in each feature, the scenarios and
    outlines that carry it. An outline carries the tags of its examples blocks too. A tag of the
    feature header alone lists the feature, even without scenarios. -/

namespace GherkinIndex

/-- A scenario or outline listed under a tag. -/
structure TaggedScenario where
  kind : Kind
  text : Text
  number : Option Nat
  deriving DecidableEq

/-- A feature listed under a tag, with the scenarios that carry it. -/
structure TaggedFeature where
  text : Text
  path : Option Text
  scenarios : List TaggedScenario
  deriving DecidableEq

/-! ### Groups -/

/-- Items grouped by tag, the tags in increasing order. -/
abbrev Groups (α : Type) := List (Tag × List α)

/-- Adds items to the group of a tag, which is opened if it is new. -/
def Groups.add {α : Type} (t : Tag) (xs : List α) : Groups α → Groups α
  | [] => [(t, xs)]
  | (u, ys) :: rest =>
    if t = u then (u, ys ++ xs) :: rest
    else if Text.precedes t u then (t, xs) :: (u, ys) :: rest
    else (u, ys) :: Groups.add t xs rest

namespace Node

/-- The tags of a node and, for an outline, of its examples blocks. -/
def effectiveTags (n : Node) : TagSet :=
  if n.kind = .outline then n.children.foldl (fun s c => s.union c.tags) n.tags else n.tags

def tagged (n : Node) : TaggedScenario := ⟨n.kind, n.text, n.number⟩

/-- The children of a feature grouped by effective tag; its own tags have a group even if empty. -/
def scenariosByTag (feature : Node) : Groups TaggedScenario :=
  let own := feature.tags.toList.foldl (fun g t => Groups.add t [] g) []
  feature.children.foldl
    (fun g c => c.effectiveTags.toList.foldl (fun g t => Groups.add t [c.tagged] g) g) own

end Node

/-! ### The index -/

/-- Tags in increasing order, each with the features using it. -/
structure TagIndex where
  groups : Groups TaggedFeature

namespace TagIndex

/-- Adds one feature under each tag it uses. -/
def addFeature (index : TagIndex) (feature : Node) : TagIndex :=
  ⟨feature.scenariosByTag.foldl
    (fun g (t, scenarios) => Groups.add t [⟨feature.text, feature.path, scenarios⟩] g) index.groups⟩

def build (features : List Node) : TagIndex := features.foldl addFeature ⟨[]⟩

def tags (index : TagIndex) : List Tag := index.groups.map (·.1)

def features? (index : TagIndex) (t : Tag) : Option (List TaggedFeature) := index.groups.lookup t

def isEmpty (index : TagIndex) : Bool := index.groups.isEmpty

end TagIndex
end GherkinIndex
