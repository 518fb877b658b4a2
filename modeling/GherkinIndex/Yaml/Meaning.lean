import GherkinIndex.Yaml.Value

/-! What a scalar without quotes stands for.

    It is decided by the letters alone. A scalar in quotes always stands for its text.

        ~   nothing        true   a truth value        0x1F, 4.5, .inf   numbers
        007, 0x, 1e999, yes   texts                                                -/

namespace GherkinIndex.Yaml

/-! ### Numbers -/

/-- The value of a non-empty run of digits in a base up to sixteen. -/
def inBase (base : Nat) (t : Text) : Option Nat :=
  if t.isEmpty then none
  else t.foldl (fun n c => match n, Text.hexValue c with
    | some n, some d => if d < base then some (n * base + d) else none
    | _, _ => none) (some 0)

/-- Digits after a zero are a text, such as a postal code. -/
def isPadded (t : Text) : Bool :=
  match t with
  | '0' :: d :: rest => (d :: rest).all Char.isDigit
  | _ => false

/-- A natural number without its sign: decimal, or with the mark of another base. -/
def natural? : Text → Option Nat
  | '0' :: 'x' :: t => inBase 16 t
  | '0' :: 'o' :: t => inBase 8 t
  | '0' :: 'b' :: t => inBase 2 t
  | t => if isPadded t then none else inBase 10 t

/-- A text without a plus sign at its start. -/
def dropPlus : Text → Text
  | '+' :: t => t
  | t => t

/-- Whether an integer with or without sign is written; it fits in 128 bits. -/
def isInteger : Text → Bool
  | '-' :: t => (natural? t).any (· ≤ Nat.pow 2 127)
  | t => (natural? (dropPlus t)).any (· < Nat.pow 2 128)

/-- Whether `mantissa * 10 ^ (exponent - places)` is beyond the largest binary64 number: its nearest
    one would be `2 ^ 1024`. -/
def overflows (mantissa places : Nat) (exponent : Int) : Bool :=
  let scale := exponent - places
  let size := (Nat.toDigits 10 mantissa).length + scale
  let bound := (Nat.pow 2 54 - 1) * Nat.pow 2 970
  if mantissa = 0 || size < 309 then false
  else if 310 < size then true
  else bound * Nat.pow 10 (-scale).toNat ≤ mantissa * Nat.pow 10 scale.toNat

/-- The exponent after a mantissa: zero where none is written. -/
def exponent? : Text → Option Int
  | [] => some 0
  | e :: t =>
    if e = 'e' ∨ e = 'E' then
      match t with
      | '-' :: t => (inBase 10 t).map fun n => -(n : Int)
      | t => (inBase 10 (dropPlus t)).map fun n => (n : Int)
    else none

/-- Whether a number with point or exponent is written, without sign. -/
def isDecimal (t : Text) : Bool :=
  let whole := t.takeWhile Char.isDigit
  let (places, rest) := match t.dropWhile Char.isDigit with
    | '.' :: rest => (rest.takeWhile Char.isDigit, rest.dropWhile Char.isDigit)
    | rest => ([], rest)
  match inBase 10 (whole ++ places), exponent? rest with
  | some m, some e => !overflows m places.length e
  | _, _ => false

def isInfinite (t : Text) : Bool := [".inf".toList, ".Inf".toList, ".INF".toList].contains t

/-- Whether a number that is no integer is written. -/
def isFraction (t : Text) : Bool :=
  [".nan".toList, ".NaN".toList, ".NAN".toList].contains t ||
    match t with
    | '-' :: t => isInfinite t || (!isPadded t && isDecimal t)
    | t => isInfinite (dropPlus t) || (!isPadded (dropPlus t) && isDecimal (dropPlus t))

/-! ### Any meaning -/

def isNull (t : Text) : Bool :=
  [[], "~".toList, "null".toList, "Null".toList, "NULL".toList].contains t

def bool? (t : Text) : Option Bool :=
  if ["true".toList, "True".toList, "TRUE".toList].contains t then some true
  else if ["false".toList, "False".toList, "FALSE".toList].contains t then some false
  else none

/-- A natural number of at most 64 bits. -/
def count? (t : Text) : Option Nat := (natural? (dropPlus t)).filter (· < Nat.pow 2 64)

/-- The meaning of a scalar without quotes. -/
def meaningOf (t : Text) : Meaning :=
  if isNull t then .nothing
  else match bool? t, count? t with
    | some b, _ => .truth b
    | none, some n => .count n
    | none, none => if isInteger t || isFraction t then .other else .text

end GherkinIndex.Yaml
