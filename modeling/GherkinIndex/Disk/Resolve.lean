import GherkinIndex.Disk.Basic

/-! From a path to a place.

    A path is taken step by step. Every step needs a directory to start from, even a dot or a slash at
    the end. A link on the way is replaced by the steps of its target; more than forty links on one
    way are too many, which also ends the way of a link to itself. -/

namespace GherkinIndex.Disk

inductive Step where
  | stay
  | up
  | name (n : Name)
  deriving DecidableEq

def step (piece : Text) : Step :=
  if piece.isEmpty || piece == ['.'] then .stay
  else if piece == ['.', '.'] then .up
  else .name piece

/-- The steps of a path. -/
def steps (p : Text) : List Step := (p.splitOn '/').map step

/-- Where a path starts, seen from a place. -/
def start (from_ : Place) (p : Text) : Place := if Path.isAbsolute p then [] else from_

/-! ### Following -/

/-- Where a way without links ends. -/
inductive Halt where
  | at (p : Place)
  /-- Nothing has the last name in its directory. -/
  | vacant (dir : Place) (name : Name)
  | link (dir : Place) (target : Text) (rest : List Step)
  | fault (f : Fault)

/-- Takes steps up to the first link; `last` tells whether a link at the very end counts. -/
def stroll (d : Disk) (last : Bool) : Place → List Step → Halt
  | p, [] => .at p
  | p, s :: rest =>
    if !d.isDirAt p then .fault .notDirectory
    else match s with
      | .stay => stroll d last p rest
      | .up => stroll d last p.dropLast rest
      | .name n => match d.item? (p ++ [n]) with
        | none => if rest.isEmpty then .vacant p n else .fault .notFound
        | some (.link target) =>
          if rest.isEmpty && !last then .at (p ++ [n]) else .link p target rest
        | some _ => stroll d last (p ++ [n]) rest

/-- What a path leads to. -/
inductive Spot where
  | found (p : Place)
  | vacant (dir : Place) (name : Name)
  deriving DecidableEq

/-- Takes steps, following at most `hops` links. -/
def follow (d : Disk) (last : Bool) : (hops : Nat) → Place → List Step → Except Fault Spot
  | hops, p, ss => match stroll d last p ss, hops with
    | .at q, _ => .ok (.found q)
    | .vacant dir name, _ => .ok (.vacant dir name)
    | .fault f, _ => .error f
    | .link _ _ _, 0 => .error .tooManyLinks
    | .link dir target rest, hops + 1 =>
      if target.isEmpty then .error .notFound
      else follow d last hops (start dir target) (steps target ++ rest)

/-- The most links on one way. -/
def maxLinks : Nat := 40

/-- What a path leads to from the current directory. -/
def locate (d : Disk) (last : Bool) (p : Text) : Except Fault Spot :=
  if p.isEmpty then .error .notFound
  else if p.contains '\x00' then .error .nulInName
  else follow d last maxLinks (start d.cwd p) (steps p)

/-- The place of an existing item, links followed. -/
def place (d : Disk) (p : Text) : Except Fault Place :=
  match d.locate true p with
  | .ok (.found q) => .ok q
  | .ok (.vacant _ _) => .error .notFound
  | .error f => .error f

/-! ### Asking -/

def isDir (d : Disk) (p : Text) : Bool :=
  match d.place p with
  | .ok q => d.isDirAt q
  | .error _ => false

def isFileAt (d : Disk) (p : Place) : Bool :=
  match d.item? p with
  | some (.file _) => true
  | _ => false

def isFile (d : Disk) (p : Text) : Bool :=
  match d.place p with
  | .ok q => d.isFileAt q
  | .error _ => false

/-- Whether something is there, be it a link that leads nowhere. -/
def isThere (d : Disk) (p : Text) : Bool :=
  match d.locate false p with
  | .ok (.found _) => true
  | _ => false

/-- The names in the directory that a path leads to. -/
def namesIn (d : Disk) (p : Text) : List Name :=
  match d.place p with
  | .ok q => d.names q
  | .error _ => []

/-- The text of a file. -/
def readText (d : Disk) (p : Text) : Except Fault Text :=
  match d.place p with
  | .error f => .error f
  | .ok q => match d.item? q with
    | some (.file bytes) => match String.fromUTF8? bytes with
      | some s => .ok s.toList
      | none => .error .notUtf8
    | some .dir => .error .isDirectory
    | _ => .error .notFound

end GherkinIndex.Disk
