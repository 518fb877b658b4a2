import GherkinIndex.Text.Basic

/-! Tags and tag sets.

    Tag order means nothing to a filter but is shown in reports, so a set keeps its tags in the order
    in which they were first added. Tags compare as texts, case included. -/

namespace GherkinIndex

abbrev Tag := Text

/-- A tag as filters write it: trimmed, with `@` in front if it was left out. -/
def Tag.normal (raw : Text) : Tag :=
  let t := Text.trim raw
  if t.head? = some '@' then t else '@' :: t

/-- Tags in first-added order. -/
structure TagSet where
  toList : List Tag
  deriving DecidableEq

namespace TagSet

def empty : TagSet := ⟨[]⟩

instance : EmptyCollection TagSet := ⟨empty⟩
instance : Inhabited TagSet := ⟨empty⟩

def isEmpty (s : TagSet) : Bool := s.toList.isEmpty

def size (s : TagSet) : Nat := s.toList.length

def contains (s : TagSet) (t : Tag) : Bool := s.toList.contains t

/-- Adds a tag at the end unless it is there already. -/
def insert (s : TagSet) (t : Tag) : TagSet :=
  if s.contains t then s else ⟨s.toList ++ [t]⟩

/-- Adds tags one by one. -/
def extend (s : TagSet) (ts : List Tag) : TagSet := ts.foldl insert s

def ofList (ts : List Tag) : TagSet := empty.extend ts

/-- The tags of `s`, then those of `o` that are new. -/
def union (s o : TagSet) : TagSet := s.extend o.toList

def intersects (s o : TagSet) : Bool := o.toList.any s.contains

/-- Whether `s` has every tag of `o`. -/
def includes (s o : TagSet) : Bool := o.toList.all s.contains

/-- The tags with blanks between them. -/
def spaced (s : TagSet) : Text := Text.join [' '] s.toList

end TagSet
end GherkinIndex
