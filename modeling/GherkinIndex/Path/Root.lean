import GherkinIndex.Path.Basic

/-! Naming files from the root of a feature tree.

    Reports name a file from a root marker on, the directory under which the features live:

        /home/me/shop/features/pay/card.feature   →   features/pay/card.feature

    The marker is configured, or derived from the input that names the files. -/

namespace GherkinIndex.Path

/-- The marker when an input names none. -/
def defaultRoot : Text := "features".toList

/-! ### Cutting at a marker -/

/-- The path with forward slashes only. -/
def forward (p : Text) : Text := p.map fun c => if c = '\\' then '/' else c

/-- The text without slashes at its ends. -/
def stripSlashes (t : Text) : Text :=
  ((t.dropWhile (· == '/')).reverse.dropWhile (· == '/')).reverse

/-- The end of a text from an occurrence of `mark` at the start of a component on. The search goes
    leftwards and passes over a whole occurrence at a time: `left` is what lies left of the cursor,
    nearest first, `right` what lies right of it, and `pass` characters belong to an occurrence
    already refused. -/
def cutLeftwards (mark : Text) : Nat → (left right : Text) → Option Text
  | _, [], _ => none
  | pass + 1, c :: left, right => cutLeftwards mark pass left (c :: right)
  | 0, c :: left, right =>
    match mark.reverse.isPrefixOf? (c :: left) with
    | some before =>
      if before.isEmpty || before.head? == some '/' then some (mark ++ right)
      else cutLeftwards mark (mark.length - 1) left (c :: right)
    | none => cutLeftwards mark 0 left (c :: right)

/-- The path from the last component sequence `root` on; the whole path if there is none. -/
def relativeTo (root p : Text) : Text :=
  let p := forward p
  let root := stripSlashes root
  if root.isEmpty then p
  else (cutLeftwards (root ++ ['/']) 0 p.reverse []).getD p

/-! ### Deriving the marker -/

/-- Whether a text holds a glob character. -/
def hasGlob (t : Text) : Bool := t.any fun c => c == '*' || c == '?' || c == '['

/-- The directories an input names before its first glob. -/
def literalDirectories (input : Text) : List Text :=
  ((input.splitOnP fun c => c == '/' || c == '\\').takeWhile (!hasGlob ·)).filter fun c =>
    !c.isEmpty && c != ['.'] && c != ['.', '.'] && !isFeature c

/-- The first literal directory of a relative input, the last one of an absolute input. -/
def rootMarker (input : Text) : Text :=
  let dirs := literalDirectories input
  let chosen :=
    if input.head? == some '/' || input.head? == some '\\' then dirs.getLast? else dirs.head?
  chosen.getD defaultRoot

end GherkinIndex.Path
