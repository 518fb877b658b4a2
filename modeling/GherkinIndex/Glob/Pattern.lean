import GherkinIndex.Text.Basic

/-! Glob patterns.

        ?        any character              [a-c!]   one of these
        *        any run of characters      [!a-c]   any but these
        **       any directories; alone between slashes

    Everything else stands for itself, case included. A pattern is refused at a position, counted in
    characters from zero. -/

namespace GherkinIndex.Glob

/-- The characters from `low` to `high`. -/
structure Range where
  low : Char
  high : Char
  deriving DecidableEq

inductive Token where
  | char (c : Char)
  | anyChar
  | anyRun
  | anywhere
  | within (ranges : List Range)
  | outside (ranges : List Range)
  deriving DecidableEq

inductive PatternFault where
  | wildcards
  | recursive
  | range
  deriving DecidableEq, Repr

structure PatternError where
  position : Nat
  fault : PatternFault
  deriving DecidableEq

def PatternFault.message : PatternFault → Text
  | .wildcards => "wildcards are either regular `*` or recursive `**`".toList
  | .recursive => "recursive wildcards must form a single path component".toList
  | .range => "invalid range pattern".toList

def PatternError.message (e : PatternError) : Text :=
  "Pattern syntax error near position ".toList ++ Text.ofNat e.position ++ ": ".toList ++
    e.fault.message

/-! ### Reading a pattern -/

/-- The ranges listed between brackets. -/
def ranges : Text → List Range
  | a :: '-' :: b :: t => ⟨a, b⟩ :: ranges t
  | a :: t => ⟨a, a⟩ :: ranges t
  | [] => []

/-- What stands in brackets, after the opening one: the token and its length. At least one character
    comes before the closing bracket, so `[]]` holds a bracket. -/
def bracket (t : Text) : Option (Token × Nat) :=
  match t with
  | '!' :: c :: t =>
    if t.contains ']' then
      let inner := c :: t.takeWhile (· != ']')
      some (.outside (ranges inner), inner.length + 2)
    else none
  | '!' :: [] => none
  | c :: t =>
    if t.contains ']' then
      let inner := c :: t.takeWhile (· != ']')
      some (.within (ranges inner), inner.length + 1)
    else none
  | [] => none

/-- Puts a token in front of those that follow. -/
def emit (k : Token) : Except PatternError (List Token) → Except PatternError (List Token)
  | .ok ks => .ok (k :: ks)
  | .error e => .error e

/-- The tokens from position `i` on; `pass` characters belong to the token before, and `previous` is
    the character before this one. -/
def scan : (pass i : Nat) → (previous : Option Char) → Text → Except PatternError (List Token)
  | _, _, _, [] => .ok []
  | pass + 1, i, _, c :: t => scan pass (i + 1) (some c) t
  | 0, i, previous, c :: t =>
    if c = '?' then emit .anyChar (scan 0 (i + 1) (some c) t)
    else if c = '*' then
      match t with
      | '*' :: '*' :: _ => .error ⟨i + 2, .wildcards⟩
      | '*' :: after =>
        if i = 0 || previous = some '/' then
          match after with
          | [] => emit .anywhere (scan 1 (i + 1) (some c) t)
          | '/' :: _ => emit .anywhere (scan 2 (i + 1) (some c) t)
          | _ => .error ⟨i + 2, .recursive⟩
        else .error ⟨i - 1, .recursive⟩
      | _ => emit .anyRun (scan 0 (i + 1) (some c) t)
    else if c = '[' then
      match bracket t with
      | some (k, n) => emit k (scan n (i + 1) (some c) t)
      | none => .error ⟨i, .range⟩
    else emit (.char c) (scan 0 (i + 1) (some c) t)

def tokens (pattern : Text) : Except PatternError (List Token) := scan 0 0 none pattern

/-! ### Matching a name -/

def Range.contains (r : Range) (c : Char) : Bool :=
  r.low.toNat ≤ c.toNat && c.toNat ≤ r.high.toNat

/-- Whether a token that stands for one character stands for this one. -/
def Token.fits : Token → Char → Bool
  | .char a, c => a == c
  | .anyChar, _ => true
  | .within rs, c => rs.any (·.contains c)
  | .outside rs, c => !rs.any (·.contains c)
  | _, _ => false

/-- Whether some end of the text passes the test. -/
def someEnd (test : Text → Bool) : Text → Bool
  | [] => test []
  | c :: t => test (c :: t) || someEnd test t

/-- Whether the tokens stand for the whole text. -/
def fits : List Token → Text → Bool
  | [], t => t.isEmpty
  | .anyRun :: ks, t => someEnd (fits ks) t
  | .anywhere :: ks, t => someEnd (fits ks) t
  | _ :: _, [] => false
  | k :: ks, c :: t => k.fits c && fits ks t

end GherkinIndex.Glob
