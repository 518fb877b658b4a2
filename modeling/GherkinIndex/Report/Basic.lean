import GherkinIndex.Path.Basic
import GherkinIndex.TagIndex

/-! Reports.

    A report holds trees that have been filtered already and the files that have none. It is laid out
    by feature or by tag and written as text, JSON or XML. -/

namespace GherkinIndex

/-- A file without a tree. -/
structure Failure where
  path : Text
  /-- The line at which reading stopped, if the file could be read at all. -/
  line : Option Nat
  message : Text
  deriving DecidableEq

structure Report where
  features : List Node
  failures : List Failure

inductive View where
  | feature | tag
  deriving DecidableEq, Repr

def View.label : View → Text
  | .feature => "feature".toList
  | .tag => "tag".toList

/-- No view has this name, given in lower case. -/
structure UnknownView where
  name : Text
  deriving DecidableEq

def UnknownView.message (e : UnknownView) : Text :=
  "unknown report view `".toList ++ e.name ++ "` (expected `feature` or `tag`)".toList

/-- The view named by a text; blanks around it and case do not matter. -/
def View.ofText (t : Text) : Except UnknownView View :=
  let name := Text.lower (Text.trim t)
  if name = View.label .feature then .ok .feature
  else if name = View.label .tag then .ok .tag
  else .error ⟨name⟩

inductive Format where
  | text | json | xml
  deriving DecidableEq, Repr

def Format.label : Format → Text
  | .text => "text".toList
  | .json => "json".toList
  | .xml => "xml".toList

/-- The format that the extension of a path stands for. -/
def Format.ofPath (p : Text) : Option Format :=
  match Path.extensionLower p with
  | none => none
  | some e =>
    if e = "txt".toList ∨ e = "text".toList then some .text
    else if e = "json".toList then some .json
    else if e = "xml".toList then some .xml
    else none

/-- Features ordered by text and the children of each as well; equal texts keep their order, and
    what lies below the children stays as it is. -/
def sortedByName (features : List Node) : List Node :=
  (features.map Node.sortChildren).mergeSort fun a b => Text.notAfter a.text b.text

def Report.sorted (r : Report) : Report := { r with features := sortedByName r.features }

end GherkinIndex
