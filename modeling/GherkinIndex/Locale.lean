import GherkinIndex.Text.Lines

/-! Keyword tables.

    A header line is a keyword right before a colon. Each language spells the four kinds of header in
    its own ways, and a file names its language in a comment on its first line:

        # language: pt-BR      →  code "pt-BR"  →  row "pt"

    Supporting another language only means adding a row to `Locale.all`. -/

namespace GherkinIndex

/-- The kinds of header line. -/
inductive Header where
  | feature | scenario | outline | examples
  deriving DecidableEq, Repr

/-- The spellings of the four headers in one language. -/
structure Locale where
  code : Text
  name : Text
  feature : List Text
  scenario : List Text
  outline : List Text
  examples : List Text
  deriving DecidableEq

/-- A file declares a language without a keyword table. -/
structure UnknownLocale where
  code : Text
  deriving DecidableEq

def UnknownLocale.message (e : UnknownLocale) : Text :=
  "unsupported feature language `".toList ++ e.code ++ "`".toList

/-- The trimmed line, if it starts with one of the spellings and a colon after leading blanks. -/
def captureHeader (spellings : List Text) (line : Text) : Option Text :=
  let body := Text.trimStart line
  if spellings.any fun k => (k ++ [':']).isPrefixOf body then some (Text.trimEnd body) else none

namespace Locale

def spellings (l : Locale) : Header → List Text
  | .feature => l.feature
  | .scenario => l.scenario
  | .outline => l.outline
  | .examples => l.examples

/-- A row of the table. -/
def row (code name : String) (feature scenario outline examples : List String) : Locale where
  code := code.toList
  name := name.toList
  feature := feature.map String.toList
  scenario := scenario.map String.toList
  outline := outline.map String.toList
  examples := examples.map String.toList

/-! ### The table -/

/-- The language of a file that declares none. -/
def english : Locale :=
  row "en" "English"
    ["Feature", "Business Need", "Ability"]
    ["Scenario", "Example"]
    ["Scenario Outline", "Scenario Template"]
    ["Examples", "Scenarios"]

def french : Locale :=
  row "fr" "français"
    ["Fonctionnalité"]
    ["Scénario", "Exemple"]
    ["Plan du scénario", "Plan du Scénario"]
    ["Exemples"]

def german : Locale :=
  row "de" "Deutsch"
    ["Funktionalität", "Funktion"]
    ["Szenario", "Beispiel"]
    ["Szenariogrundriss", "Szenarien"]
    ["Beispiele"]

def spanish : Locale :=
  row "es" "español"
    ["Característica", "Necesidad del negocio", "Requisito"]
    ["Escenario", "Ejemplo"]
    ["Esquema del escenario"]
    ["Ejemplos"]

def portuguese : Locale :=
  row "pt" "português"
    ["Funcionalidade", "Característica", "Caracteristica"]
    ["Cenário", "Cenario", "Exemplo"]
    ["Esquema do Cenário", "Esquema do Cenario", "Delineação do Cenário", "Delineacao do Cenario"]
    ["Exemplos", "Cenários", "Cenarios"]

def dutch : Locale :=
  row "nl" "Nederlands"
    ["Functionaliteit"]
    ["Scenario", "Voorbeeld"]
    ["Abstract Scenario"]
    ["Voorbeelden"]

def japanese : Locale :=
  row "ja" "日本語"
    ["フィーチャ", "機能"]
    ["シナリオ"]
    ["シナリオアウトライン", "シナリオテンプレート", "テンプレ", "シナリオテンプレ"]
    ["例", "サンプル"]

/-- Every language with a keyword table. -/
def all : List Locale := [english, french, german, spanish, portuguese, dutch, japanese]

/-! ### Finding a row -/

/-- A code as the table writes it: trimmed, in lower case, with `-` between subtags. -/
def normalCode (code : Text) : Text :=
  (Text.lower (Text.trim code)).map fun c => if c = '_' then '-' else c

/-- The row of a code, else the row of its primary subtag. -/
def lookup (code : Text) : Option Locale :=
  let code := normalCode code
  match all.find? (·.code == code) with
  | some l => some l
  | none => (Text.cutAt '-' code).bind fun (primary, _) => all.find? (·.code == primary)

/-! ### Declarations -/

/-- Two or three letters, then any number of subtags of letters and digits after `-` or `_`. -/
def isCode (t : Text) : Bool :=
  match t.splitOnP fun c => c == '-' || c == '_' with
  | [] => false
  | primary :: subtags =>
    (primary.length == 2 || primary.length == 3) && primary.all Char.isAlpha &&
      subtags.all fun s => !s.isEmpty && s.all Char.isAlphanum

/-- The code in a comment `# language: code`; blanks may stand around each part. -/
def declared? (line : Text) : Option Text := do
  let afterHash ← ['#'].isPrefixOf? (Text.trimStart line)
  let afterWord ← "language".toList.isPrefixOf? (Text.trimStart afterHash)
  let afterColon ← [':'].isPrefixOf? (Text.trimStart afterWord)
  let code := Text.trim afterColon
  if isCode code then some code else none

/-- The language of a file, chosen from its first line. -/
def select (firstLine : Option Text) : Except UnknownLocale Locale :=
  match firstLine.bind declared? with
  | none => .ok english
  | some code => match lookup code with
    | some l => .ok l
    | none => .error ⟨code⟩

end Locale
end GherkinIndex
