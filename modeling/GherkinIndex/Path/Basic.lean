import GherkinIndex.Text.Basic

/-! Paths.

    A path is kept as written. What it means is its components: empty pieces and inner dots say
    nothing, a dot at the very start does.

        ./a//b/./c.txt/   →   here, a, b, c.txt
        /a/..             →   root, a, up                                  -/

namespace GherkinIndex

namespace Path

/-- One step of a path. -/
inductive Component where
  | root
  | here
  | up
  | name (n : Text)
  deriving DecidableEq

def isAbsolute (p : Text) : Bool := p.head? == some '/'

/-- A piece after the first one; empty pieces and dots are no component. -/
def component? (piece : Text) : Option Component :=
  if piece.isEmpty || piece == ['.'] then none
  else if piece == ['.', '.'] then some .up
  else some (.name piece)

def components (p : Text) : List Component :=
  match p.splitOn '/' with
  | [] => []
  | first :: pieces =>
    let start : List Component :=
      if isAbsolute p then [.root]
      else if first == ['.'] then [.here]
      else (component? first).toList
    start ++ pieces.filterMap component?

/-! ### Order -/

/-- The place of a component's class: root, then here, up and names. -/
def Component.rank : Component → Nat
  | .root => 0
  | .here => 1
  | .up => 2
  | .name _ => 3

def Component.precedes : Component → Component → Bool
  | .name a, .name b => Text.precedes a b
  | a, b => a.rank.blt b.rank

/-- Component by component, a shorter path before its extensions. -/
def precedesList : List Component → List Component → Bool
  | _, [] => false
  | [], _ :: _ => true
  | a :: s, b :: t => a.precedes b || (a == b && precedesList s t)

/-- Paths are ordered and compared by their components: `a/b` comes before `a-b`. -/
def precedes (p q : Text) : Bool := precedesList (components p) (components q)

/-- Whether two paths have the same components. -/
def same (p q : Text) : Bool := components p == components q

/-- Strictly increasing: sorted, and of paths with the same components the first one only. -/
def ordered (ps : List Text) : List Text :=
  dedup (ps.mergeSort fun p q => !precedes q p)
where
  dedup : List Text → List Text
    | [] => []
    | p :: ps => match dedup ps with
      | [] => [p]
      | q :: qs => if same p q then p :: qs else p :: q :: qs

/-! ### Parts -/

/-- The last component, if it is a name. -/
def fileName (p : Text) : Option Text :=
  match (components p).getLast? with
  | some (.name n) => some n
  | _ => none

/-- What follows the last dot of the file name; a dot at its start does not count. -/
def extension (p : Text) : Option Text :=
  match fileName p with
  | none => none
  | some name =>
    let tail := name.reverse.takeWhile (· != '.')
    if tail.length + 1 < name.length then some tail.reverse else none

/-- The extension in ASCII lower case. -/
def extensionLower (p : Text) : Option Text := (extension p).map Text.lower

/-- Whether the file name ends in `.feature`, in any case. -/
def isFeature (p : Text) : Bool := extensionLower p == some "feature".toList

/-- The pieces without the meaningless ones at the end. -/
def dropIdle (pieces : List Text) : List Text :=
  (pieces.reverse.dropWhile fun x => x.isEmpty || x == ['.']).reverse

/-- The path without its last component. -/
def parent (p : Text) : Option Text :=
  match p.splitOn '/' with
  | [] => none
  | first :: pieces =>
    match dropIdle pieces with
    | [] => if isAbsolute p || p.isEmpty then none else some []
    | kept =>
      let above := dropIdle kept.dropLast
      if above.isEmpty && isAbsolute p then some ['/']
      else some (Text.join ['/'] (first :: above))

/-- `p` seen from `base`; an absolute path stands for itself. -/
def join (base p : Text) : Text :=
  if isAbsolute p || base.isEmpty then p
  else if base.getLast? == some '/' then base ++ p
  else base ++ '/' :: p

end Path
end GherkinIndex
