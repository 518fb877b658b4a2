import GherkinIndex.Options.File
import GherkinIndex.Yaml.Read

/-! Option files in YAML.

    An option file is a YAML map. A key that is unknown or stands twice makes the whole file invalid,
    and so does a value of the wrong kind. This is how the program reads option files; what is proved
    of options and of runs holds with any other reader as well. -/

namespace GherkinIndex.OptionFile

/-! ### Values -/

/-- Every scalar has a text, numbers too. -/
def textOf : Yaml → Option Text
  | .scalar s => some s.text
  | _ => none

def boolOf : Yaml → Option Bool
  | .scalar ⟨_, .truth b⟩ => some b
  | _ => none

def countOf : Yaml → Option Nat
  | .scalar ⟨_, .count n⟩ => some n
  | _ => none

/-- A scalar that stands for nothing but its text. -/
def plainTextOf : Yaml → Option Text
  | .scalar ⟨t, .text⟩ => some t
  | _ => none

/-- One text or a list of texts. -/
def textsOf : Yaml → Option (List Text)
  | .list items => items.mapM plainTextOf
  | v => (plainTextOf v).map ([·])

/-- The view with this very name. -/
def viewOf (v : Yaml) : Option View :=
  (textOf v).bind fun t => [View.feature, .tag].find? (·.label == t)

/-- The level with this very name. -/
def levelOf (v : Yaml) : Option LogLevel := (textOf v).bind LogLevel.named?

/-! ### Fields -/

def isNull : Yaml → Bool
  | .scalar ⟨_, .nothing⟩ => true
  | _ => false

/-- Whether the keys of a map are known and none stands twice. -/
def keysFit (known : List String) (fields : List (Text × Yaml)) : Bool :=
  let keys := fields.map (·.1)
  keys.all ((known.map String.toList).contains ·) && keys.eraseDups == keys

/-- The value under a key, if there is one; `none` if it is of the wrong kind. -/
def field {α : Type} (fields : List (Text × Yaml)) (key : String) (kind : Yaml → Option α) :
    Option (Option α) :=
  match fields.lookup key.toList with
  | none => some none
  | some v => if isNull v then some none else (kind v).map some

/-- Filter criteria, each one tag or a list. -/
def criteriaOf : Yaml → Option Criteria
  | .map fields => do
    if keysFit ["any", "all", "none"] fields then
      let any ← field fields "any" textsOf
      let all ← field fields "all" textsOf
      let no ← field fields "none" textsOf
      return { anyOf := any.getD [], allOf := all.getD [], noneOf := no.getD [] }
    else none
  | _ => none

/-- The keys of an option file. -/
def keys : List String :=
  ["input", "tags", "filter", "output", "output_home", "view", "sort", "strict", "jobs", "root",
   "log_level"]

def ofFields (fields : List (Text × Yaml)) : Option OptionFile := do
  if keysFit keys fields then
    let tags ← field fields "tags" textsOf
    let filter ← field fields "filter" criteriaOf
    let outputs ← field fields "output" textsOf
    return {
      input := ← field fields "input" textOf
      tags := tags.getD []
      filter := filter.getD {}
      outputs := outputs.getD []
      outputHome := ← field fields "output_home" textOf
      view := ← field fields "view" viewOf
      sort := ← field fields "sort" boolOf
      settings := {
        logLevel := ← field fields "log_level" levelOf
        strict := ← field fields "strict" boolOf
        jobs := ← field fields "jobs" countOf
        root := ← field fields "root" textOf } }
  else none

/-- A document without content decides nothing. -/
def ofYaml : Yaml → Option OptionFile
  | .map fields => ofFields fields
  | .scalar ⟨[], .nothing⟩ => some {}
  | _ => none

/-- The options of a text as the program reads them. -/
def ofText (t : Text) : Option OptionFile := (Yaml.read t).bind ofYaml

end GherkinIndex.OptionFile
