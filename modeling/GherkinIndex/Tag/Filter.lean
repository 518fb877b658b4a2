import GherkinIndex.Tag.Set

/-! Tag filters.

    A filter is the conjunction of three criteria on a candidate's tags: it has none of `noneOf`, at
    least one of `anyOf`, every one of `allOf`. An empty criterion asks for nothing, so the empty
    filter accepts every candidate. -/

namespace GherkinIndex

structure TagFilter where
  noneOf : TagSet := .empty
  anyOf : TagSet := .empty
  allOf : TagSet := .empty
  deriving DecidableEq

/-- Tags listed for each criterion, as option files and command lines give them. -/
structure Criteria where
  anyOf : List Text := []
  allOf : List Text := []
  noneOf : List Text := []
  deriving DecidableEq

namespace TagFilter

/-- The filter that accepts everything. -/
def unfiltered : TagFilter := {}

def isUnfiltered (f : TagFilter) : Bool := f.noneOf.isEmpty && f.anyOf.isEmpty && f.allOf.isEmpty

def accepts (f : TagFilter) (tags : TagSet) : Bool :=
  !tags.intersects f.noneOf && (f.anyOf.isEmpty || tags.intersects f.anyOf) && tags.includes f.allOf

/-! ### Adding criteria -/

def forbid (f : TagFilter) (tags : List Text) : TagFilter :=
  { f with noneOf := f.noneOf.extend (tags.map Tag.normal) }

def needOne (f : TagFilter) (tags : List Text) : TagFilter :=
  { f with anyOf := f.anyOf.extend (tags.map Tag.normal) }

def needAll (f : TagFilter) (tags : List Text) : TagFilter :=
  { f with allOf := f.allOf.extend (tags.map Tag.normal) }

def add (f : TagFilter) (c : Criteria) : TagFilter :=
  ((f.needOne c.anyOf).needAll c.allOf).forbid c.noneOf

/-- Both filters' tags in each criterion. -/
def merge (f g : TagFilter) : TagFilter where
  noneOf := f.noneOf.union g.noneOf
  anyOf := f.anyOf.union g.anyOf
  allOf := f.allOf.union g.allOf

end TagFilter
end GherkinIndex
