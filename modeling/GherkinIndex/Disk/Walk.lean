import GherkinIndex.Disk.Resolve

/-! Walking a directory.

    The walk enters every sub-directory, links included, and reports what it comes across in the
    order of names. A link that leads back to a directory the walk is in would never end, so it is
    reported and not entered; a link that leads nowhere is reported as well.

        features          above: [features]
        ├─ a.feature      file
        ├─ back → .       loop
        └─ gone → x       broken -/

namespace GherkinIndex.Disk

inductive Sighting where
  | file (path : Text)
  | loop
  | broken (path : Text) (fault : Fault)
  deriving DecidableEq

/-- The sightings below the directory at `p`, shown as `path`; `above` are the places the walk is in.
    Between two links the walk only goes down, and a link adds a place to `above`, so `fuel` that
    covers both bounds the depth. -/
def walkWithin (d : Disk) : (fuel : Nat) → (above : List Place) → Place → (path : Text) →
    List Sighting
  | 0, _, _, _ => []
  | fuel + 1, above, p, path =>
    (d.names p).flatMap fun n =>
      let path := Path.join path n
      match d.item? (p ++ [n]) with
      | some (.file _) => [.file path]
      | some .dir => walkWithin d fuel ((p ++ [n]) :: above) (p ++ [n]) path
      | some (.link _) => match d.place path with
        | .error f => [.broken path f]
        | .ok q =>
          if d.isDirAt q then
            if above.contains q then [.loop] else walkWithin d fuel (q :: above) q path
          else [.file path]
      | none => []

/-- Enough for every walk: so many places, each with a way down no longer than that. -/
def walkFuel (d : Disk) : Nat := (d.items.length + 2) * (d.items.length + 2)

/-- The sightings below the directory that a path leads to. -/
def walk (d : Disk) (path : Text) : List Sighting :=
  match d.place path with
  | .ok p => d.walkWithin d.walkFuel [p] p path
  | .error f => [.broken path f]

end GherkinIndex.Disk
