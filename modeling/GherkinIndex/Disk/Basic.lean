import GherkinIndex.Path.Basic

/-! File trees.

    A disk maps places to items. A place is the list of names from the root down, so it says where an
    item really is; a path is what a user writes, and leads to a place through dots and links. The
    root itself is always a directory. -/

namespace GherkinIndex

abbrev Name := Text

/-- The names from the root down to an item. -/
abbrev Place := List Name

inductive Item where
  | file (bytes : ByteArray)
  | link (target : Text)
  | dir

structure Disk where
  /-- Where relative paths start. -/
  cwd : Place := []
  items : List (Place × Item) := []

/-- Why the disk refuses. -/
inductive Fault where
  | notFound
  | fileExists
  | notDirectory
  | isDirectory
  | tooManyLinks
  | notUtf8
  | nulInName
  deriving DecidableEq, Repr

def Fault.message : Fault → Text
  | .notFound => "No such file or directory (os error 2)".toList
  | .fileExists => "File exists (os error 17)".toList
  | .notDirectory => "Not a directory (os error 20)".toList
  | .isDirectory => "Is a directory (os error 21)".toList
  | .tooManyLinks => "Too many levels of symbolic links (os error 40)".toList
  | .notUtf8 => "stream did not contain valid UTF-8".toList
  | .nulInName => "file name contained an unexpected NUL byte".toList

namespace Disk

def item? (d : Disk) (p : Place) : Option Item :=
  if p.isEmpty then some .dir else d.items.lookup p

def isDirAt (d : Disk) (p : Place) : Bool :=
  match d.item? p with
  | some .dir => true
  | _ => false

/-- The name of `q` if it lies directly in `p`. -/
def nameIn (p q : Place) : Option Name := if q.dropLast = p then q.getLast? else none

/-- The names in a directory, in increasing order. -/
def names (d : Disk) (p : Place) : List Name :=
  (d.items.filterMap fun (q, _) => nameIn p q).mergeSort Text.notAfter

/-- Puts an item at a place, over what was there. -/
def put (d : Disk) (p : Place) (i : Item) : Disk :=
  if d.items.any (·.1 == p) then
    { d with items := d.items.map fun (q, j) => if q = p then (q, i) else (q, j) }
  else { d with items := d.items ++ [(p, i)] }

end Disk
end GherkinIndex
