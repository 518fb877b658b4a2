import GherkinIndex.Json.Value

/-! Reading JSON, strictly.

    One value and nothing after it but blanks; no trailing comma, no raw control character in a
    string, no surrogate without its partner, no leading zero. A reader takes what it understands
    from the front of a text and hands back the rest. -/

namespace GherkinIndex.Json

/-- The rest after the four blanks of the format. -/
def skip (t : Text) : Text :=
  t.dropWhile fun c => c == ' ' || c == '\t' || c == '\n' || c == '\r'

/-! ### Strings -/

/-- The value of four hexadecimal digits. -/
def hexUnit (a b c d : Char) : Option Nat := do
  return (← Text.hexValue a) * 4096 + (← Text.hexValue b) * 256 + (← Text.hexValue c) * 16 +
    (← Text.hexValue d)

def isHighSurrogate (n : Nat) : Bool := 0xD800 ≤ n && n < 0xDC00

def isLowSurrogate (n : Nat) : Bool := 0xDC00 ≤ n && n < 0xE000

/-- The character of a surrogate pair. -/
def pairChar (high low : Nat) : Char := Char.ofNat (0x10000 + (high - 0xD800) * 0x400 + (low - 0xDC00))

/-- The character of an escape of one letter. -/
def escapedChar : Char → Option Char
  | '"' => some '"'
  | '\\' => some '\\'
  | '/' => some '/'
  | 'b' => some '\x08'
  | 'f' => some '\x0c'
  | 'n' => some '\n'
  | 'r' => some '\r'
  | 't' => some '\t'
  | _ => none

/-- Puts a character in front of what was read. -/
def push (c : Char) : Option (Text × Text) → Option (Text × Text)
  | none => none
  | some (s, rest) => some (c :: s, rest)

/-- A string after its opening quote. -/
def readString : Text → Option (Text × Text)
  | [] => none
  | '"' :: t => some ([], t)
  | '\\' :: 'u' :: a :: b :: c :: d :: t =>
    match hexUnit a b c d with
    | none => none
    | some n =>
      if isHighSurrogate n then
        match t with
        | '\\' :: 'u' :: a' :: b' :: c' :: d' :: t' =>
          match hexUnit a' b' c' d' with
          | none => none
          | some m => if isLowSurrogate m then push (pairChar n m) (readString t') else none
        | _ => none
      else if isLowSurrogate n then none
      else push (Char.ofNat n) (readString t)
  | '\\' :: e :: t =>
    match escapedChar e with
    | none => none
    | some c => push c (readString t)
  | c :: t => if c.toNat < 0x20 || c == '\\' then none else push c (readString t)

/-! ### Values -/

/-- A natural number without leading zeros. -/
def readNumber (t : Text) : Option (Json × Text) :=
  match t with
  | '0' :: rest => some (.nat 0, rest)
  | _ => (Text.readNat (t.takeWhile Char.isDigit)).map fun n => (.nat n, t.dropWhile Char.isDigit)

/-- A word or a number. -/
def readPlain (t : Text) : Option (Json × Text) :=
  match "null".toList.isPrefixOf? t, "true".toList.isPrefixOf? t, "false".toList.isPrefixOf? t with
  | some rest, _, _ => some (.null, rest)
  | _, some rest, _ => some (.bool true, rest)
  | _, _, some rest => some (.bool false, rest)
  | none, none, none => readNumber t

mutual

/-- A value; `fuel` bounds the calls and is at least twice the length of the text. -/
def readValue : Nat → Text → Option (Json × Text)
  | 0, _ => none
  | fuel + 1, t => match skip t with
    | '"' :: t => (readString t).map fun (s, rest) => (.text s, rest)
    | '[' :: t => match skip t with
      | ']' :: rest => some (.list [], rest)
      | t => (readItems fuel t).map fun (xs, rest) => (.list xs, rest)
    | '{' :: t => match skip t with
      | '}' :: rest => some (.object [], rest)
      | t => (readFields fuel t).map fun (fs, rest) => (.object fs, rest)
    | t => readPlain t

/-- One or more items and the closing bracket. -/
def readItems : Nat → Text → Option (List Json × Text)
  | 0, _ => none
  | fuel + 1, t => match readValue fuel t with
    | none => none
    | some (x, t) => match skip t with
      | ']' :: rest => some ([x], rest)
      | ',' :: t => (readItems fuel t).map fun (xs, rest) => (x :: xs, rest)
      | _ => none

/-- One or more fields and the closing brace. -/
def readFields : Nat → Text → Option (List (Text × Json) × Text)
  | 0, _ => none
  | fuel + 1, t => match skip t with
    | '"' :: t => match readString t with
      | none => none
      | some (k, t) => match skip t with
        | ':' :: t => match readValue fuel t with
          | none => none
          | some (v, t) => match skip t with
            | '}' :: rest => some ([(k, v)], rest)
            | ',' :: t => (readFields fuel t).map fun (fs, rest) => ((k, v) :: fs, rest)
            | _ => none
        | _ => none
    | _ => none

end

/-- The value of a document. -/
def read (t : Text) : Option Json :=
  match readValue (2 * t.length + 2) t with
  | some (v, rest) => if (skip rest).isEmpty then some v else none
  | none => none

end GherkinIndex.Json
