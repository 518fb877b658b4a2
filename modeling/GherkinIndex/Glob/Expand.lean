import GherkinIndex.Disk.Resolve
import GherkinIndex.Glob.Pattern

/-! The paths that a glob stands for.

    A glob is matched component by component. A part without wildcards is looked up by name, so a
    directory is listed only where a wildcard needs it. `**` stands for any number of directories:
    it goes down into all of them and gives its place to the next part at each level.

        features/**/x*.feature    literal, anywhere, wild                      -/

namespace GherkinIndex.Glob

/-- One component of a glob. -/
inductive Part where
  | literal (name : Text)
  | wild (tokens : List Token)
  | anywhere
  deriving DecidableEq

/-- A part made of plain characters only is literal. -/
def Part.ofTokens (ks : List Token) : Part :=
  if ks = [.anywhere] then .anywhere
  else match ks.mapM (fun | Token.char c => some c | _ => none) with
    | some name => .literal name
    | none => .wild ks

/-- Whether a name is what the part stands for. -/
def Part.fits : Part → Text → Bool
  | .literal name, n => name == n
  | .wild ks, n => Glob.fits ks n
  | .anywhere, _ => true

/-- Whether a part names dot entries on purpose. -/
def Part.startsWithDot : Part → Bool
  | .wild (.char '.' :: _) => true
  | _ => false

end Glob

structure Glob where
  absolute : Bool
  parts : List Glob.Part
  /-- A slash at the end asks for directories only. -/
  onlyDirs : Bool

namespace Glob

/-- The parts of components, each a pattern of its own. -/
def partsOf : List Text → Except PatternError (List Part)
  | [] => .ok []
  | t :: ts => match tokens t, partsOf ts with
    | .error e, _ => .error e
    | .ok _, .error e => .error e
    | .ok ks, .ok ps => .ok (Part.ofTokens ks :: ps)

/-- The pattern as a whole has to be valid, and so has each component alone. -/
def ofText (pattern : Text) : Except PatternError Glob :=
  match tokens pattern with
  | .error e => .error e
  | .ok _ =>
    let absolute := pattern.head? == some '/'
    let pieces := (if absolute then pattern.drop 1 else pattern).splitOn '/'
    let onlyDirs := pattern.getLast? == some '/'
    match partsOf (if pieces.getLast? == some [] then pieces.dropLast else pieces) with
    | .error e => .error e
    | .ok parts => .ok ⟨absolute, parts, onlyDirs⟩

/-! ### Expansion -/

/-- A path and the parts it has to match yet; `none` if it is known to match. -/
abbrev Candidate := Text × Option (List Part)

/-- The path of a name; the current directory at the start is not shown. -/
def extend (path : Text) (name : Text) : Text :=
  if Path.components path == [.here] then name else Path.join path name

/-- Takes a path that matched one part on to the parts that are left. -/
def settle (rest : List Part) (next : Text → List Candidate) (path : Text) : List Candidate :=
  if rest.isEmpty then [(path, none)] else next path

/-- The candidates below a path. Literal parts are taken at once, a wildcard lists the directory. -/
def below (d : Disk) : List Part → Text → List Candidate
  | [], _ => []
  | .literal name :: rest, path =>
    let next := extend path name
    let dots := name == ['.'] || name == ['.', '.']
    if (if dots then d.isDir path else d.isThere next || d.isDir next) then
      settle rest (below d rest) next
    else []
  | part :: rest, path =>
    if d.isDir path then
      let special := [['.', '.'], ['.']].filter fun n => part.startsWithDot && part.fits n
      special.flatMap (fun n => settle rest (below d rest) (Path.join path n)) ++
        (d.namesIn path).map fun n => (extend path n, some (part :: rest))
    else []

/-- The paths that candidates lead to; `fuel` bounds the depth. -/
def expandWithin (g : Glob) (d : Disk) : (fuel : Nat) → Candidate → List Text
  | 0, _ => []
  | _ + 1, (path, none) => if g.onlyDirs && !d.isDir path then [] else [path]
  | fuel + 1, (path, some parts) =>
    let go (cs : List Candidate) : List Text := cs.flatMap (expandWithin g d fuel)
    let here (parts : List Part) : List Text :=
      match parts, Path.fileName path with
      | part :: rest, some name =>
        if !part.fits name then []
        else if rest.isEmpty then (if g.onlyDirs && !d.isDir path then [] else [path])
        else go (below d rest path)
      | _, _ => []
    if parts.head? == some .anywhere then
      let rest := parts.dropWhile (· == .anywhere)
      let found := if rest.isEmpty then (if d.isDir path then [path] else []) else here rest
      let deeper := if d.isDir path then go (below d (.anywhere :: rest) path) else []
      found ++ deeper
    else here parts

/-- Enough for every expansion: a way passes at most forty links, each followed by a way down, and a
    literal part may go up again. -/
def expandFuel (g : Glob) (d : Disk) : Nat :=
  (g.parts.length + 2) * ((Disk.maxLinks + 2) * (d.items.length + 2))

/-- Every path that the glob stands for, a directory before what lies in it. -/
def expand (g : Glob) (d : Disk) : List Text :=
  (below d g.parts (if g.absolute then ['/'] else ['.'])).flatMap
    (expandWithin g d (g.expandFuel d))

end Glob
end GherkinIndex
