import GherkinIndex.Report.Basic

/-! Reports as indented text.

    One line per node, two spaces deeper than its parent. Brackets show the tags that a node adds to
    its parent's, a number in parentheses tells siblings with one text apart.

        Feature: cart [@shop]
          Scenario: add item
          Scenario: add item (2) [@wip]                                        -/

namespace GherkinIndex.Report

def indent (depth : Nat) : Text := List.replicate (2 * depth) ' '

def numberSuffix : Option Nat → Text
  | none => []
  | some n => " (".toList ++ Text.ofNat n ++ [')']

/-- The tags that are not inherited, in brackets; nothing if all are. -/
def tagSuffix (inherited tags : TagSet) : Text :=
  let own := tags.toList.filter (!inherited.contains ·)
  if own.isEmpty then [] else " [".toList ++ Text.join [' '] own ++ [']']

mutual

/-- The lines of a node and of everything below it. -/
def nodeLines (inherited : TagSet) (depth : Nat) : Node → List Text
  | ⟨_, text, tags, _, number, _, children⟩ =>
    (indent depth ++ text ++ numberSuffix number ++ tagSuffix inherited tags) ::
      childLines tags (depth + 1) children

def childLines (inherited : TagSet) (depth : Nat) : List Node → List Text
  | [] => []
  | n :: ns => nodeLines inherited depth n ++ childLines inherited depth ns

end

def failureLine (f : Failure) : Text :=
  let line : Text := match f.line with
    | none => []
    | some n => ':' :: Text.ofNat n
  "failed: ".toList ++ f.path ++ line ++ ": ".toList ++ f.message

def featureLines (r : Report) : List Text :=
  childLines .empty 0 r.features ++ r.failures.map failureLine

/-- The lines of a feature under a tag. -/
def taggedLines (f : TaggedFeature) : List Text :=
  let path : Text := match f.path with
    | none => []
    | some p => " (".toList ++ p ++ [')']
  (indent 1 ++ f.text ++ path) ::
    f.scenarios.map fun s => indent 2 ++ s.text ++ numberSuffix s.number

def tagLines (index : TagIndex) : List Text :=
  index.groups.flatMap fun (t, features) => t :: features.flatMap taggedLines

/-- Every line closed by a line feed. -/
def unlines (ls : List Text) : Text := ls.flatMap (· ++ ['\n'])

end GherkinIndex.Report
