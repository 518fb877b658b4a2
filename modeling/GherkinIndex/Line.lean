import GherkinIndex.Locale

/-! What a single line means.

    The seven recognisers are tried in a fixed order: doc-string fence, tags, the four headers, table
    row. Recognising is stateless; whether a doc string is open when the line is reached is for the
    reader of the whole file to know. -/

namespace GherkinIndex

/-- The two fences of a doc string: a quote or a backtick, three times. -/
inductive Fence where
  | quotes | backticks
  deriving DecidableEq, Repr

def Fence.char : Fence → Char
  | .quotes => '"'
  | .backticks => '\x60'

/-- A fence line, with the media type that may follow an opening fence. -/
structure Delimiter where
  fence : Fence
  mediaType : Option Text
  deriving DecidableEq

/-- Only a bare fence of the same kind closes a doc string. -/
def Delimiter.closes (d : Delimiter) (fence : Fence) : Bool :=
  d.fence == fence && d.mediaType.isNone

/-- What a line contributes to the structure of a file. -/
inductive Mark where
  | tags (tags : List Text)
  | header (header : Header) (text : Text)
  | row (text : Text)
  deriving DecidableEq

/-- A line with a structural meaning. -/
inductive Line where
  | fence (delimiter : Delimiter)
  | mark (mark : Mark)
  deriving DecidableEq

namespace Line

/-- The delimiter of one fence on a trimmed line. -/
def delimiterOf (body : Text) (fence : Fence) : Option Delimiter :=
  match (List.replicate 3 fence.char).isPrefixOf? body with
  | none => none
  | some [] => some ⟨fence, none⟩
  | some media =>
    if media.any fun c => Text.isBlank c || c == fence.char then none else some ⟨fence, some media⟩

/-- A fence alone, or followed by a media type without blanks and without the fence's character. -/
def delimiter? (line : Text) : Option Delimiter :=
  [Fence.quotes, Fence.backticks].findSome? (delimiterOf (Text.trim line))

/-- The words before the first one that starts a comment, if each is `@` and a name. -/
def tags? (line : Text) : Option (List Text) :=
  let tags := (Text.words line).takeWhile (·.head? != some '#')
  if !tags.isEmpty && tags.all (fun w => w.head? == some '@' && w.length != 1) then some tags
  else none

/-- The trimmed line, if it is longer than one character and has `|` at both ends. -/
def row? (line : Text) : Option Text :=
  let body := Text.trim line
  if body.length != 1 && body.head? == some '|' && body.getLast? == some '|' then some body
  else none

/-- The first kind of header, in the order of the table, that captures the line. -/
def header? (l : Locale) (line : Text) : Option Mark :=
  [Header.feature, .scenario, .outline, .examples].findSome? fun h =>
    (captureHeader (l.spellings h) line).map (Mark.header h)

def classify (l : Locale) (line : Text) : Option Line :=
  match delimiter? line with
  | some d => some (.fence d)
  | none => match tags? line with
    | some ts => some (.mark (.tags ts))
    | none => match header? l line with
      | some m => some (.mark m)
      | none => (row? line).map (.mark ∘ .row)

end Line
end GherkinIndex
