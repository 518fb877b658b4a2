import GherkinIndex.Text.Basic

/-! XML elements and their written form.

    All content is in attributes. An element stands on a line of its own, two spaces deeper than its
    parent; one without children closes itself. Markup characters of an attribute value become
    entities, and a character that XML 1.0 cannot hold becomes U+FFFD. -/

namespace GherkinIndex.Xml

structure Attribute where
  name : Text
  value : Text
  deriving DecidableEq

structure Element where
  name : Text
  attributes : List Attribute
  children : List Element := []

instance : Inhabited Element := ⟨⟨[], [], []⟩⟩

/-! ### Attribute values -/

/-- The production `Char` of XML 1.0. -/
def isChar (c : Char) : Bool :=
  let n := c.toNat
  n == 0x09 || n == 0x0A || n == 0x0D || (0x20 ≤ n && n ≤ 0xD7FF) || (0xE000 ≤ n && n ≤ 0xFFFD) ||
    0x10000 ≤ n

def escapeChar (c : Char) : Text :=
  if c = '&' then "&amp;".toList
  else if c = '<' then "&lt;".toList
  else if c = '>' then "&gt;".toList
  else if c = '"' then "&quot;".toList
  else if c = '\'' then "&apos;".toList
  else if isChar c then [c]
  else "&#xFFFD;".toList

def escape (t : Text) : Text := t.flatMap escapeChar

/-! ### Writing -/

def writeAttribute (a : Attribute) : Text := ' ' :: a.name ++ ['=', '"'] ++ escape a.value ++ ['"']

/-- The name and attributes of an opening tag. -/
def writeHead (name : Text) (attributes : List Attribute) : Text :=
  '<' :: name ++ attributes.flatMap writeAttribute

def indent (depth : Nat) : Text := List.replicate (2 * depth) ' '

mutual

def write (depth : Nat) : Element → Text
  | ⟨name, attributes, children⟩ =>
    indent depth ++ writeHead name attributes ++
      match children with
      | [] => " />\n".toList
      | c :: cs =>
        ">\n".toList ++ write (depth + 1) c ++ writeAll (depth + 1) cs ++
          indent depth ++ "</".toList ++ name ++ ">\n".toList

def writeAll (depth : Nat) : List Element → Text
  | [] => []
  | e :: es => write depth e ++ writeAll depth es

end

def declaration : Text := "<?xml version=\"1.0\" encoding=\"UTF-8\"?>\n".toList

/-- A document; its root is written with an opening and a closing tag even if it is empty. -/
def document (root : Element) : Text :=
  declaration ++ writeHead root.name root.attributes ++ ">\n".toList ++
    writeAll 1 root.children ++ "</".toList ++ root.name ++ ">\n".toList

end GherkinIndex.Xml
