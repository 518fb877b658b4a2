import GherkinIndex.Tag.Filter

/-! The tree of a feature file.

        feature
        ├─ scenario
        └─ outline
           └─ examples
              └─ row

    A node owns its children, and a child is attached only when it is complete. A numbered child is
    told apart from earlier siblings with its text by the count of its occurrence: the second one gets
    2, the third one 3, the first one nothing. -/

namespace GherkinIndex

/-- What a node stands for. -/
inductive Kind where
  | feature | scenario | outline | examples | row
  deriving DecidableEq, Repr

/-- The word for a kind in reports and logs. -/
def Kind.label : Kind → Text
  | .feature => "feature".toList
  | .scenario => "scenario".toList
  | .outline => "scenario_outline".toList
  | .examples => "examples".toList
  | .row => "example_row".toList

structure Node where
  kind : Kind
  /-- The header or row as written, apostrophes escaped. -/
  text : Text
  /-- Inherited tags first. -/
  tags : TagSet
  path : Option Text := none
  number : Option Nat := none
  /-- Whether the node takes a number from its siblings. -/
  numbered : Bool := false
  children : List Node := []

namespace Node

instance : Inhabited Node := ⟨⟨.feature, [], .empty, none, none, false, []⟩⟩

/-! ### Equality -/

mutual

def decEq : (a b : Node) → Decidable (a = b)
  | ⟨k, t, g, p, n, m, c⟩, ⟨k', t', g', p', n', m', c'⟩ =>
    if h : k = k' ∧ t = t' ∧ g = g' ∧ p = p' ∧ n = n' ∧ m = m' then
      match decEqList c c' with
      | .isTrue hc => .isTrue (by obtain ⟨rfl, rfl, rfl, rfl, rfl, rfl⟩ := h; rw [hc])
      | .isFalse hc => .isFalse (by intro e; cases e; exact hc rfl)
    else .isFalse (by intro e; cases e; exact h ⟨rfl, rfl, rfl, rfl, rfl, rfl⟩)

def decEqList : (as bs : List Node) → Decidable (as = bs)
  | [], [] => .isTrue rfl
  | [], _ :: _ => .isFalse (by intro e; cases e)
  | _ :: _, [] => .isFalse (by intro e; cases e)
  | a :: as, b :: bs =>
    match decEq a b, decEqList as bs with
    | .isTrue h, .isTrue hs => .isTrue (by rw [h, hs])
    | .isFalse h, _ => .isFalse (by intro e; cases e; exact h rfl)
    | _, .isFalse hs => .isFalse (by intro e; cases e; exact hs rfl)

end

instance : DecidableEq Node := decEq

/-! ### Children -/

/-- How many children have this text. -/
def occurrences (n : Node) (text : Text) : Nat := n.children.countP (·.text == text)

/-- The child with the number it takes among the children of `n`. -/
def numberedIn (n child : Node) : Node :=
  if child.numbered && 0 < n.occurrences child.text then
    { child with number := some (n.occurrences child.text + 1) }
  else child

/-- Attaches a complete child. -/
def addChild (n child : Node) : Node :=
  { n with children := n.children ++ [n.numberedIn child] }

def hasChildren (n : Node) : Bool := !n.children.isEmpty

def childTexts (n : Node) : List Text := n.children.map (·.text)

/-- The first child of a kind. -/
def findChild (n : Node) (kind : Kind) : Option Node := n.children.find? (·.kind == kind)

/-- The children ordered by text, equal texts as they were. -/
def sortChildren (n : Node) : Node :=
  { n with children := n.children.mergeSort fun a b => Text.notAfter a.text b.text }

end Node
end GherkinIndex
