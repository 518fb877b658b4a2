/-! Texts, blanks and trimming.

    A text is the list of its code points, so every scan in this library is a recursion on that list
    and lengths count code points. What separates words is the Unicode property `White_Space`, not
    the handful of ASCII blanks: an ideographic space indents a line as well as a tab does. -/

namespace GherkinIndex

/-- A text is the list of its code points. -/
abbrev Text := List Char

namespace Text

/-- The Unicode property `White_Space`. -/
def isBlank (c : Char) : Bool :=
  let n := c.toNat
  (0x09 ≤ n && n ≤ 0x0D) || n == 0x20 || n == 0x85 || n == 0xA0 || n == 0x1680 ||
    (0x2000 ≤ n && n ≤ 0x200A) || n == 0x2028 || n == 0x2029 || n == 0x202F || n == 0x205F ||
    n == 0x3000

/-! ### Trimming -/

def trimStart (t : Text) : Text := t.dropWhile isBlank

def trimEnd (t : Text) : Text := (t.reverse.dropWhile isBlank).reverse

def trim (t : Text) : Text := trimEnd (trimStart t)

/-- Whether nothing is left after trimming. -/
def isBlankText (t : Text) : Bool := t.all isBlank

/-! ### Cutting -/

/-- The maximal runs of characters that are not blank. -/
def words (t : Text) : List Text := (t.splitOnP isBlank).filter (!·.isEmpty)

/-- The text before and after the first `sep`, if there is one. -/
def cutAt (sep : Char) (t : Text) : Option (Text × Text) :=
  match t.dropWhile (· != sep) with
  | [] => none
  | _ :: after => some (t.takeWhile (· != sep), after)

/-- Drops one byte-order mark from the start. -/
def dropMark : Text → Text
  | '\uFEFF' :: t => t
  | t => t

/-! ### Letters and digits

    Keywords, codes and option words are ASCII, so case is folded for ASCII letters only. -/

/-- ASCII letters in lower case, every other character as it is. -/
def lower (t : Text) : Text := t.map Char.toLower

/-- Decimal digits of a natural number, without leading zeros. -/
def ofNat (n : Nat) : Text := Nat.toDigits 10 n

/-- Value of a non-empty run of ASCII digits; leading zeros are allowed. -/
def readNat (t : Text) : Option Nat :=
  if t.isEmpty || !t.all Char.isDigit then none
  else some (t.foldl (fun n c => n * 10 + (c.toNat - '0'.toNat)) 0)

/-- Value of a hexadecimal digit. -/
def hexValue (c : Char) : Option Nat :=
  if c.isDigit then some (c.toNat - '0'.toNat)
  else if 'a'.toNat ≤ c.toNat && c.toNat ≤ 'f'.toNat then some (c.toNat - 'a'.toNat + 10)
  else if 'A'.toNat ≤ c.toNat && c.toNat ≤ 'F'.toNat then some (c.toNat - 'A'.toNat + 10)
  else none

/-! ### Order -/

/-- Strict code-point order: a proper beginning of a text comes before it. -/
def precedes : Text → Text → Bool
  | _, [] => false
  | [], _ :: _ => true
  | a :: s, b :: t => a.toNat.blt b.toNat || (a == b && precedes s t)

/-- `s` does not come after `t`. -/
def notAfter (s t : Text) : Bool := !precedes t s

/-! ### Joining -/

/-- The texts with `sep` between neighbours. -/
def join (sep : Text) (ts : List Text) : Text := sep.intercalate ts

/-- Each apostrophe with a backslash put before it. -/
def escapeApostrophes (t : Text) : Text :=
  t.flatMap fun c => if c = '\'' then ['\\', '\''] else [c]

end Text
end GherkinIndex
