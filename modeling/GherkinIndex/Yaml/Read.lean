import GherkinIndex.Yaml.Scalar

/-! Reading YAML.

    Blocks are nested by columns, brackets by their marks. A block map starts with a key, a scalar on
    one line with a colon behind it; all its keys stand in one column. The values of a block lie
    further right, only a list may have its dashes in the column of the key it belongs to.

        tags:            filter:
        - fast             any: [a, b]
        - slow             none: {}     -- columns 0 and 2

    Only what option files are usually written in is read. Anchors, tags, directives, block scalars,
    complex keys and the mark that ends a document are refused. -/

namespace GherkinIndex.Yaml

/-! ### Inside brackets

    `m` bounds from the left what plain scalars may have of tabs. -/

mutual

/-- The value at a cursor inside brackets. `fuel` bounds the calls; every value takes a character, and
    there are at most two calls for one. -/
def readFlow : (fuel m : Nat) → Cursor → Option (Yaml × Cursor)
  | 0, _, _ => none
  | fuel + 1, m, c => match c.rest with
    | '[' :: _ => (readFlowItems fuel m ((c.past 1 false).skip true)).map fun (xs, c) => (.list xs, c)
    | '{' :: _ => (readFlowFields fuel m ((c.past 1 false).skip true)).map fun (fs, c) => (.map fs, c)
    | _ => (readScalar true m c).map fun (s, c) => (.scalar s, c)

/-- The items up to the closing bracket; a comma may stand before it. -/
def readFlowItems : (fuel m : Nat) → Cursor → Option (List Yaml × Cursor)
  | 0, _, _ => none
  | fuel + 1, m, c => match c.rest with
    | ']' :: _ => some ([], c.past 1 false)
    | _ => match readFlow fuel m c with
      | none => none
      | some (x, c) =>
        let c := c.skip true
        match c.rest with
        | ',' :: _ =>
          (readFlowItems fuel m ((c.past 1 false).skip true)).map fun (xs, c) => (x :: xs, c)
        | ']' :: _ => some ([x], c.past 1 false)
        | _ => none

/-- The fields up to the closing brace; a key without a colon on its line has no value. -/
def readFlowFields : (fuel m : Nat) → Cursor → Option (List (Text × Yaml) × Cursor)
  | 0, _, _ => none
  | fuel + 1, m, c => match c.rest with
    | '}' :: _ => some ([], c.past 1 false)
    | _ => match readScalar true m c with
      | none => none
      | some (key, after) => match readFlowValue fuel m c.line (after.skip true) with
        | none => none
        | some (v, c) =>
          let c := c.skip true
          match c.rest with
          | ',' :: _ =>
            (readFlowFields fuel m ((c.past 1 false).skip true)).map fun (fs, c) =>
              ((key.text, v) :: fs, c)
          | '}' :: _ => some ([(key.text, v)], c.past 1 false)
          | _ => none

/-- The value after a key on line `line`. -/
def readFlowValue : (fuel m line : Nat) → Cursor → Option (Yaml × Cursor)
  | 0, _, _, _ => none
  | fuel + 1, m, line, c => match c.rest with
    | ':' :: _ =>
      if c.line ≠ line then none
      else
        let c := (c.past 1 false).skip true
        match c.rest with
        | ',' :: _ => some (nothing, c)
        | '}' :: _ => some (nothing, c)
        | _ => readFlow fuel m c
    | _ => some (nothing, c)

end

/-! ### Blocks -/

/-- Whether a scalar on line `line` was a key: its colon follows on the same line. -/
def closesKey (line : Nat) (c : Cursor) : Bool := c.line == line && c.atColon

/-- Whether the blocks in column `k` and to the right of it end at a cursor. -/
def endsBlock (k : Nat) (c : Cursor) : Bool := c.atEnd || (c.fresh && c.column < k)

mutual

/-- The value at a cursor, in columns from `m` on; `hanging` allows the dashes of a list one column
    before. Where nothing stands there, the value is nothing. -/
def readBlock : (fuel m : Nat) → (hanging : Bool) → Cursor → Option (Yaml × Cursor)
  | 0, _, _, _ => none
  | fuel + 1, m, hanging, c =>
    if c.atEnd then some (nothing, c)
    else if c.fresh && c.column < m && !(hanging && c.column + 1 == m && c.atDash) then
      some (nothing, c)
    else if c.atDash then
      if c.fresh then (readItems fuel c.column c).map fun (xs, c) => (.list xs, c) else none
    else match c.rest with
      | '[' :: _ => readFlow fuel m { c with fresh := false }
      | '{' :: _ => readFlow fuel m { c with fresh := false }
      | _ => match readScalar false m c with
        | none => none
        | some (s, after) =>
          if c.fresh && closesKey c.line (after.skip false) then
            (readFields fuel c.column c).map fun (fs, c) => (.map fs, c)
          else some (.scalar s, after)

/-- The entries of a list from the dash at a cursor on, all dashes in column `k`. -/
def readItems : (fuel k : Nat) → Cursor → Option (List Yaml × Cursor)
  | 0, _, _ => none
  | fuel + 1, k, c => match readBlock fuel (k + 1) false ((c.past 1 true).skip false) with
    | none => none
    | some (x, c) =>
      let c := c.skip false
      if c.fresh && c.column == k && c.atDash then
        (readItems fuel k c).map fun (xs, c) => (x :: xs, c)
      else if c.fresh || c.atEnd then some ([x], c)
      else none

/-- The fields of a map from the key at a cursor on, all keys in column `k`. -/
def readFields : (fuel k : Nat) → Cursor → Option (List (Text × Yaml) × Cursor)
  | 0, _, _ => none
  | fuel + 1, k, c => match readScalar false (k + 1) c with
    | none => none
    | some (key, after) =>
      let colon := after.skip false
      if !closesKey c.line colon then none
      else match readBlock fuel (k + 1) true ((colon.past 1 false).skip false) with
        | none => none
        | some (v, c) =>
          let c := c.skip false
          if endsBlock k c then some ([(key.text, v)], c)
          else if c.fresh && c.column == k then
            (readFields fuel k c).map fun (fs, c) => ((key.text, v) :: fs, c)
          else none

end

/-! ### Documents -/

/-- The cursor at the content of a document; a line of three dashes may stand before it, and no entry
    starts behind the dashes. -/
def content (t : Text) : Cursor :=
  let c := (Cursor.start t).skip false
  if c.column = 0 ∧ c.atWord ['-', '-', '-'] then (c.past 3 false).skip false else c

/-- The value of a text that holds one document. -/
def read (t : Text) : Option Yaml :=
  let t := withFeeds (Text.dropMark t)
  if !t.all isPrintable then none
  else match readBlock (2 * t.length + 4) 0 false (content t) with
    | none => none
    | some (v, c) => if (c.skip false).rest.isEmpty then some v else none

end GherkinIndex.Yaml
