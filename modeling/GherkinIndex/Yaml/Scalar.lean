import GherkinIndex.Yaml.Cursor
import GherkinIndex.Yaml.Meaning

/-! Reading scalars.

    A scalar may go on over lines. What stands between two of its words is a gap: blanks within a
    line are kept, one line end is a space, and of several line ends all but the first are kept.

        a  b     a⏎     b        a⏎⏎b     a\⏎ b   (double quotes)
        "a  b"   "a b"           "a⏎b"    "ab"                          -/

namespace GherkinIndex.Yaml

/-! ### Gaps -/

inductive Gap where
  | within (blanks : Text)
  /-- The first line end, unless it is escaped, and those after it. -/
  | lines (first : Option Char) (more : Text)
  deriving DecidableEq

namespace Gap

/-- Nothing between two characters. -/
def none : Gap := .within []

def isEmpty (g : Gap) : Bool := g == .within []

def crossesLines : Gap → Bool
  | .within _ => false
  | .lines _ _ => true

/-- Blanks at the start of a line are not kept. -/
def addSpace (c : Char) : Gap → Gap
  | .within blanks => .within (blanks ++ [c])
  | .lines first more => .lines first more

/-- Blanks at the end of a line are not kept. -/
def addBreak (c : Char) : Gap → Gap
  | .within _ => .lines (some c) []
  | .lines first more => .lines first (more ++ [c])

/-- What a gap contributes to the scalar. -/
def text : Gap → Text
  | .within blanks => blanks
  | .lines (some '\n') [] => [' ']
  | .lines (some '\n') more => more
  | .lines (some c) more => c :: more
  | .lines Option.none more => more

end Gap

/-- Puts a text in front of what was read. -/
def before (s : Text) : Option (Text × Cursor) → Option (Text × Cursor)
  | none => none
  | some (t, c) => some (s ++ t, c)

/-! ### Plain scalars -/

/-- The characters that end a plain scalar inside brackets. -/
def isFlowMark (c : Char) : Bool := [',', '[', ']', '{', '}'].contains c

/-- The other characters that no plain scalar starts with. -/
def isIndicator (c : Char) : Bool :=
  ['#', '&', '*', '!', '|', '>', '\'', '"', '%', '@', '\x60'].contains c

/-- Whether a plain scalar may start with a text. -/
def startsPlain (bracketed : Bool) : Text → Bool
  | [] => false
  | c :: t =>
    if c = '-' then !endsWord t
    else if c = '?' ∨ c = ':' then !bracketed && !endsWord t
    else !isBlank c && !isFlowMark c && !isIndicator c

/-- Whether a plain scalar ends before the character `c`, with a gap in front of it and `t` behind. Outside
    brackets its lines reach as far as column `m`. -/
def endsPlain (bracketed : Bool) (m column : Nat) (gap : Gap) (c : Char) (t : Text) : Bool :=
  (gap.crossesLines && ((!bracketed && column < m) || (column == 0 && isMarker (c :: t)))) ||
    (c == '#' && !gap.isEmpty) || (c == ':' && endsWord t) || (bracketed && isFlowMark c)

/-- A colon right before a mark of the brackets belongs to neither. -/
def isAmbiguous (c : Char) (t : Text) : Bool :=
  c == ':' && t.head?.any fun d => isFlowMark d || d == '?'

/-- The rest of a plain scalar and the token after it. A tab at the start of a line may not stand in
    for the indentation. -/
def readPlain (bracketed : Bool) (m line column : Nat) (gap : Gap) : Text → Option (Text × Cursor)
  | [] => some ([], ⟨[], line, column, !bracketed && gap.crossesLines⟩)
  | c :: t =>
    if isBreak c then readPlain bracketed m (line + 1) 0 (gap.addBreak c) t
    else if isSpace c then
      if c = '\t' ∧ gap.crossesLines ∧ column < m then none
      else readPlain bracketed m line (column + 1) (gap.addSpace c) t
    else if endsPlain bracketed m column gap c t then
      some ([], ⟨c :: t, line, column, !bracketed && gap.crossesLines⟩)
    else if bracketed && isAmbiguous c t then none
    else before (gap.text ++ [c]) (readPlain bracketed m line (column + 1) .none t)

/-! ### Quoted scalars -/

/-- The rest of a scalar in single quotes; a quote inside it is written twice. -/
def readSingle (line column : Nat) (gap : Gap) : Text → Option (Text × Cursor)
  | [] => none
  | '\'' :: '\'' :: t => before (gap.text ++ ['\'']) (readSingle line (column + 2) .none t)
  | c :: t =>
    if isBreak c then readSingle (line + 1) 0 (gap.addBreak c) t
    else if isSpace c then readSingle line (column + 1) (gap.addSpace c) t
    else if column = 0 ∧ isMarker (c :: t) then none
    else if c = '\'' then some (gap.text, ⟨t, line, column + 1, false⟩)
    else before (gap.text ++ [c]) (readSingle line (column + 1) .none t)

/-- The character of an escape of one letter. -/
def escapedChar : Char → Option Char
  | '0' => some '\x00'
  | 'a' => some '\x07'
  | 'b' => some '\x08'
  | 't' | '\t' => some '\t'
  | 'n' => some '\n'
  | 'v' => some '\x0b'
  | 'f' => some '\x0c'
  | 'r' => some '\r'
  | 'e' => some '\x1b'
  | ' ' => some ' '
  | '"' => some '"'
  | '/' => some '/'
  | '\\' => some '\\'
  | 'N' => some '\u0085'
  | '_' => some '\u00a0'
  | 'L' => some '\u2028'
  | 'P' => some '\u2029'
  | _ => none

/-- The number of digits after the letter of a numeric escape. -/
def escapeWidth : Char → Option Nat
  | 'x' => some 2
  | 'u' => some 4
  | 'U' => some 8
  | _ => none

/-- The character with a code point, if there is one. -/
def charOf? (n : Nat) : Option Char := if n.isValidChar then some (Char.ofNat n) else none

/-- What the next character of a scalar in double quotes is part of. -/
inductive Inside where
  | text
  | escape
  /-- A numeric escape that lacks `left + 1` digits. -/
  | digits (left value : Nat)

/-- The rest of a scalar in double quotes. -/
def readDouble (line column : Nat) (inside : Inside) (gap : Gap) : Text → Option (Text × Cursor)
  | [] => none
  | c :: t => match inside with
    | .escape =>
      if isBreak c then before gap.text (readDouble (line + 1) 0 .text (.lines none []) t)
      else match escapeWidth c, escapedChar c with
        | some (n + 1), _ => readDouble line (column + 1) (.digits n 0) gap t
        | _, some d => before (gap.text ++ [d]) (readDouble line (column + 1) .text .none t)
        | _, none => none
    | .digits left value => match Text.hexValue c, left with
      | none, _ => none
      | some d, 0 => match charOf? (16 * value + d) with
        | none => none
        | some x => before (gap.text ++ [x]) (readDouble line (column + 1) .text .none t)
      | some d, left + 1 => readDouble line (column + 1) (.digits left (16 * value + d)) gap t
    | .text =>
      if isBreak c then readDouble (line + 1) 0 .text (gap.addBreak c) t
      else if isSpace c then readDouble line (column + 1) .text (gap.addSpace c) t
      else if column = 0 ∧ isMarker (c :: t) then none
      else if c = '"' then some (gap.text, ⟨t, line, column + 1, false⟩)
      else if c = '\\' then readDouble line (column + 1) .escape gap t
      else before (gap.text ++ [c]) (readDouble line (column + 1) .text .none t)

/-! ### Any scalar -/

/-- The scalar at a cursor and the token or blanks after it; a plain one reaches as far as column `m`. -/
def readScalar (bracketed : Bool) (m : Nat) (c : Cursor) : Option (Scalar × Cursor) :=
  match c.rest with
  | '\'' :: t => (readSingle c.line (c.column + 1) .none t).map fun (s, c) => (⟨s, .text⟩, c)
  | '"' :: t => (readDouble c.line (c.column + 1) .text .none t).map fun (s, c) => (⟨s, .text⟩, c)
  | t =>
    if startsPlain bracketed t then
      (readPlain bracketed m c.line c.column .none t).map fun (s, c) => (⟨s, meaningOf s⟩, c)
    else none

end GherkinIndex.Yaml
