import GherkinIndex.Disk.Resolve

/-! Changing a file tree.

    Every change is to one item: a directory made where nothing was, or a file written whole. -/

namespace GherkinIndex.Disk

/-- Makes one directory. -/
def makeDir (d : Disk) (p : Text) : Except Fault Disk :=
  match d.locate false p with
  | .error f => .error f
  | .ok (.found _) => .error .fileExists
  | .ok (.vacant dir name) => .ok (d.put (dir ++ [name]) .dir)

/-- A directory that is there is as good as one just made. -/
def orThere (d : Disk) (p : Text) (made : Except Fault Disk) : Except Fault Disk :=
  match made with
  | .ok d => .ok d
  | .error f => if d.isDir p then .ok d else .error f

/-- Makes a directory and the missing ones above it; `fuel` bounds how many there are. -/
def makeDirsWithin (d : Disk) : (fuel : Nat) → Text → Except Fault Disk
  | 0, _ => .error .notFound
  | fuel + 1, p =>
    if p.isEmpty then .ok d
    else match d.makeDir p with
      | .error .notFound => match Path.parent p with
        | none => .error .notFound
        | some above => match makeDirsWithin d fuel above with
          | .ok d => d.orThere p (d.makeDir p)
          | .error f => .error f
      | made => d.orThere p made

def makeDirs (d : Disk) (p : Text) : Except Fault Disk := d.makeDirsWithin (p.length + 1) p

/-- Writes a file, new or over an old one; a path that ends in a slash asks for a directory. -/
def writeFile (d : Disk) (p : Text) (content : Text) : Except Fault Disk :=
  if p.getLast? == some '/' then
    match d.locate false (p.reverse.dropWhile (· == '/')).reverse with
    | .error f => .error f
    | .ok _ => .error .isDirectory
  else match d.locate true p with
    | .error f => .error f
    | .ok (.vacant dir name) => .ok (d.put (dir ++ [name]) (.file (String.ofList content).toUTF8))
    | .ok (.found q) =>
      if d.isDirAt q then .error .isDirectory
      else .ok (d.put q (.file (String.ofList content).toUTF8))

end GherkinIndex.Disk
