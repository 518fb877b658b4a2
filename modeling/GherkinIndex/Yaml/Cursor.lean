import GherkinIndex.Text.Basic

/-! Places in a YAML text.

    Blocks are told apart by columns and keys by lines, so what is left of a text is kept together
    with the line and the column at which it starts. Spaces, line ends and comments separate; a tab
    separates as well, but not where the entry of a block may start, because columns are counted in
    characters. -/

namespace GherkinIndex.Yaml

/-! ### Characters -/

def isSpace (c : Char) : Bool := c == ' ' || c == '\t'

def isBreak (c : Char) : Bool := c == '\n' || c == '\u2028' || c == '\u2029'

def isBlank (c : Char) : Bool := isSpace c || isBreak c

/-- Whether a blank or the end follows. -/
def endsWord : Text → Bool
  | [] => true
  | c :: _ => isBlank c

/-- Carriage returns, alone or before a line feed, and next-line characters become line feeds. -/
def withFeeds : Text → Text
  | [] => []
  | '\r' :: '\n' :: t => '\n' :: withFeeds t
  | c :: t => (if c = '\r' ∨ c = '\u0085' then '\n' else c) :: withFeeds t

/-- Whether a character may stand in a document. -/
def isPrintable (c : Char) : Bool :=
  let n := c.toNat
  n == 0x09 || n == 0x0A || n == 0x0D || (0x20 ≤ n && n ≤ 0x7E) || n == 0x85 ||
    (0xA0 ≤ n && n ≤ 0xD7FF) || (0xE000 ≤ n && n ≤ 0xFFFD) || 0x10000 ≤ n

/-! ### Cursors -/

structure Cursor where
  rest : Text
  line : Nat
  column : Nat
  /-- Whether the entry of a block may start here. -/
  fresh : Bool

/-- The cursor at the start of a text. -/
def Cursor.start (t : Text) : Cursor := ⟨t, 0, 0, true⟩

namespace Cursor

/-- Separators are passed over up to the next token; `comment` tells whether one has begun. Inside
    brackets no entry ever starts. -/
def skipFrom (bracketed : Bool) (line column : Nat) (fresh comment : Bool) : Text → Cursor
  | [] => ⟨[], line, column, fresh⟩
  | c :: t =>
    if isBreak c then skipFrom bracketed (line + 1) 0 (!bracketed) false t
    else if comment || c == ' ' || (c == '\t' && !fresh) then
      skipFrom bracketed line (column + 1) fresh comment t
    else if c = '#' then skipFrom bracketed line (column + 1) fresh true t
    else ⟨c :: t, line, column, fresh⟩

/-- The next token. -/
def skip (bracketed : Bool) (c : Cursor) : Cursor :=
  skipFrom bracketed c.line c.column c.fresh false c.rest

/-- The cursor behind `n` characters of a line; `fresh` tells whether an entry may follow them. -/
def past (n : Nat) (fresh : Bool) (c : Cursor) : Cursor :=
  ⟨c.rest.drop n, c.line, c.column + n, fresh⟩

/-- Whether a word stands at the cursor. -/
def atWord (w : Text) (c : Cursor) : Bool :=
  match w.isPrefixOf? c.rest with
  | some after => endsWord after
  | none => false

/-- Whether a dash that opens the entry of a list stands at the cursor. -/
def atDash (c : Cursor) : Bool := c.atWord ['-']

/-- Whether a colon that separates a key from its value stands at the cursor. -/
def atColon (c : Cursor) : Bool := c.atWord [':']

end Cursor

/-- Whether a text at the start of a line begins or ends a document. -/
def isMarker (t : Text) : Bool :=
  match t with
  | '-' :: '-' :: '-' :: rest => endsWord rest
  | '.' :: '.' :: '.' :: rest => endsWord rest
  | _ => false

/-- Whether the document has nothing more at the cursor. -/
def Cursor.atEnd (c : Cursor) : Bool := c.rest.isEmpty || (c.column == 0 && isMarker c.rest)

end GherkinIndex.Yaml
