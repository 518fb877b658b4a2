import GherkinIndex.Feature.Visible
import GherkinIndex.Log

/-! Putting a feature together.

    Nothing in a feature file says where a construct ends, so a scenario, an outline and an examples
    block are held back until a later header, or the end of the file, shows that they are complete.
    Only then does the filter decide whether they join the tree.

        held:  nothing ──scenario──▶ scenario ──examples──▶ outline + block
                  └──────outline──▶ outline ───examples──▶ outline + block ──row↺

    A scenario followed by examples is an outline by another name. An outline that ends up without a
    block is dropped. Tags wait for the next header of any kind. -/

namespace GherkinIndex

/-- Why a file is refused. -/
inductive Misplaced where
  | scenarioOutsideFeature
  | examplesOutsideOutline
  | duplicateFeature
  | missingFeature
  deriving DecidableEq, Repr

structure ParseError where
  line : Nat
  fault : Misplaced
  deriving DecidableEq

def Misplaced.message : Misplaced → Text
  | .scenarioOutsideFeature => "scenario header appears before the feature header".toList
  | .examplesOutsideOutline => "examples header appears outside a scenario outline".toList
  | .duplicateFeature => "only one feature header is allowed per file".toList
  | .missingFeature => "no feature header found".toList

def ParseError.message (e : ParseError) : Text :=
  "line ".toList ++ Text.ofNat e.line ++ ": ".toList ++ e.fault.message

/-- Attaches a complete child if the filter accepts its tags. -/
def Node.offer (f : TagFilter) (parent child : Node) : Node × List Event :=
  if f.accepts child.tags then (parent.addChild child, [])
  else (parent, [.filteredOut child.kind child.text])

/-- What is held back below the feature. -/
inductive Held where
  | nothing
  | scenario (node : Node)
  | outline (node : Node) (block : Option Node)
  deriving DecidableEq

/-- A feature with what is still open in it. -/
structure Draft where
  feature : Node
  held : Held
  deriving DecidableEq

namespace Draft

/-- The outline after its open block is complete. -/
def closeBlock (f : TagFilter) (outline : Node) : Option Node → Node × List Event
  | none => (outline, [])
  | some block => outline.offer f block

/-- The feature after everything held is complete. -/
def settle (f : TagFilter) (d : Draft) : Node × List Event :=
  match d.held with
  | .nothing => (d.feature, [])
  | .scenario s => d.feature.offer f s
  | .outline o b =>
    let (o, events) := closeBlock f o b
    if o.hasChildren then (d.feature.addChild o, events)
    else (d.feature, events ++ [.outlineDropped o.text])

/-- Settles what is held and holds something new. -/
def hold (f : TagFilter) (d : Draft) (held : Held) : Draft × List Event :=
  let (feature, events) := d.settle f
  (⟨feature, held⟩, events)

/-- A header below the feature, with its parent's tags first. -/
def child (kind : Kind) (numbered : Bool) (text : Text) (inherited own : TagSet) : Node where
  kind := kind
  text := Text.escapeApostrophes text
  tags := inherited.union own
  numbered := numbered

/-- Opens a block in what is held, closing the one before; `none` where no block may stand. -/
def openBlock (f : TagFilter) (d : Draft) (text : Text) (own : TagSet) :
    Option (Draft × List Event) :=
  match d.held with
  | .nothing => none
  | .scenario s =>
    let o := { s with kind := .outline }
    some (⟨d.feature, .outline o (some (child .examples false text o.tags own))⟩,
      [.scenarioAsOutline s.text])
  | .outline o b =>
    let (o, events) := closeBlock f o b
    some (⟨d.feature, .outline o (some (child .examples false text o.tags own))⟩, events)

/-- Adds a row to the open block; without one the row means nothing. -/
def addRow (d : Draft) (text : Text) : Draft :=
  match d.held with
  | .outline o (some b) =>
    { d with held := .outline o (some (b.addChild (child .row true text b.tags .empty))) }
  | _ => d

end Draft

/-! ### The machine -/

/-- What has been read so far: tags waiting for a header, the feature, the log. -/
structure Reading where
  pending : TagSet := .empty
  draft : Option Draft := none
  log : List Event := []
  deriving DecidableEq

namespace Reading

/-- Takes in one mark. A refused mark leaves no event behind. -/
def step (f : TagFilter) (path : Option Text) (r : Reading) : Mark → Except Misplaced Reading
  | .tags ts => .ok { r with pending := r.pending.extend ts }
  | .row text => .ok { r with draft := r.draft.map (·.addRow text) }
  | .header .feature text => match r.draft with
    | some _ => .error .duplicateFeature
    | none =>
      let feature : Node :=
        { kind := .feature, text := Text.escapeApostrophes text, tags := r.pending, path := path }
      .ok { r with pending := .empty, draft := some ⟨feature, .nothing⟩ }
  | .header .scenario text => match r.draft with
    | none => .error .scenarioOutsideFeature
    | some d =>
      let s := Draft.child .scenario true text d.feature.tags r.pending
      let (d, events) := d.hold f (.scenario s)
      .ok { pending := .empty, draft := some d, log := r.log ++ events }
  | .header .outline text => match r.draft with
    | none => .error .scenarioOutsideFeature
    | some d =>
      let o := Draft.child .outline true text d.feature.tags r.pending
      let (d, events) := d.hold f (.outline o none)
      .ok { pending := .empty, draft := some d, log := r.log ++ events }
  | .header .examples text => match r.draft.bind (·.openBlock f text r.pending) with
    | none => .error .examplesOutsideOutline
    | some (d, events) => .ok { pending := .empty, draft := some d, log := r.log ++ events }

/-- Takes in marks up to the first one that is refused. -/
def run (f : TagFilter) (path : Option Text) (r : Reading) :
    List Placed → Reading × Option ParseError
  | [] => (r, none)
  | p :: ps => match r.step f path p.mark with
    | .ok r => r.run f path ps
    | .error fault => (r, some ⟨p.line, fault⟩)

end Reading
end GherkinIndex
