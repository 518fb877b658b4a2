import GherkinIndex.Text.Basic

/-! JSON values and their printed form.

    Numbers are natural: nothing this library writes or accepts needs another. An object keeps its
    fields in order. A value is printed with two spaces per level, every item on a line of its own;
    an empty list or object stays on one line. Inside a string only quotes, backslashes and control
    characters are escaped. -/

namespace GherkinIndex

inductive Json where
  | null
  | bool (b : Bool)
  | nat (n : Nat)
  | text (t : Text)
  | list (items : List Json)
  | object (fields : List (Text × Json))

namespace Json

instance : Inhabited Json := ⟨.null⟩

/-! ### Strings -/

/-- A hexadecimal digit in lower case. -/
def hexDigit (n : Nat) : Char := Nat.digitChar n

/-- How a character stands inside a string. -/
def escapeChar (c : Char) : Text :=
  if c = '"' then ['\\', '"']
  else if c = '\\' then ['\\', '\\']
  else if c = '\x08' then ['\\', 'b']
  else if c = '\x0c' then ['\\', 'f']
  else if c = '\n' then ['\\', 'n']
  else if c = '\r' then ['\\', 'r']
  else if c = '\t' then ['\\', 't']
  else if c.toNat < 0x20 then ['\\', 'u', '0', '0', hexDigit (c.toNat / 16), hexDigit (c.toNat % 16)]
  else [c]

def quote (t : Text) : Text := '"' :: (t.flatMap escapeChar ++ ['"'])

/-! ### Layout -/

/-- A line feed and the indentation of a level. -/
def newline (depth : Nat) : Text := '\n' :: List.replicate (2 * depth) ' '

mutual

/-- A value whose first line stands at a level. -/
def print (depth : Nat) : Json → Text
  | .null => "null".toList
  | .bool true => "true".toList
  | .bool false => "false".toList
  | .nat n => Text.ofNat n
  | .text t => quote t
  | .list [] => ['[', ']']
  | .list (x :: xs) =>
    '[' :: newline (depth + 1) ++ print (depth + 1) x ++ printItems (depth + 1) xs ++
      newline depth ++ [']']
  | .object [] => ['{', '}']
  | .object ((k, v) :: fs) =>
    '{' :: newline (depth + 1) ++ quote k ++ [':', ' '] ++ print (depth + 1) v ++
      printFields (depth + 1) fs ++ newline depth ++ ['}']

/-- The items after the first one. -/
def printItems (depth : Nat) : List Json → Text
  | [] => []
  | x :: xs => ',' :: newline depth ++ print depth x ++ printItems depth xs

/-- The fields after the first one. -/
def printFields (depth : Nat) : List (Text × Json) → Text
  | [] => []
  | (k, v) :: fs =>
    ',' :: newline depth ++ quote k ++ [':', ' '] ++ print depth v ++ printFields depth fs

end

/-- The document of a value. -/
def pretty (v : Json) : Text := print 0 v

end Json
end GherkinIndex
