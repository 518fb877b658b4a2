import GherkinIndex.Disk.Resolve
import GherkinIndex.Report.Basic
import GherkinIndex.Settings
import GherkinIndex.Tag.Filter

/-! Option files.

    An option file is a text on the disk. A blank one decides nothing; what any other one holds, if it
    is an option file at all, is for a reader to say. Loading takes the reader as it comes, and so does
    whatever is built on it.

        no text ──▶ unreadable     blank ──▶ no options     text ──reader──▶ options, or invalid   -/

namespace GherkinIndex

/-- What an option file leaves out, or gives no value, is decided elsewhere. -/
structure OptionFile where
  input : Option Text := none
  tags : List Text := []
  filter : Criteria := {}
  outputs : List Text := []
  outputHome : Option Text := none
  view : Option View := none
  sort : Option Bool := none
  settings : Overrides := {}
  deriving DecidableEq

namespace OptionFile

/-- The options that a text holds, `none` for a text that is no option file. -/
abbrev Reader := Text → Option OptionFile

inductive LoadError where
  | unreadable (path : Text) (cause : Fault)
  | invalid (path : Text)
  deriving DecidableEq

/-- The messages of an error, outermost first. -/
def LoadError.chain : LoadError → List Text
  | .unreadable p cause => ["failed to read option file ".toList ++ p, cause.message]
  | .invalid p => ["invalid option file ".toList ++ p]

/-- The options in a file; a blank one has none. -/
def load (read : Reader) (d : Disk) (path : Text) : Except LoadError OptionFile :=
  match d.readText path with
  | .error cause => .error (.unreadable path cause)
  | .ok t =>
    if Text.isBlankText t then .ok {}
    else match read t with
      | some f => .ok f
      | none => .error (.invalid path)

end OptionFile
end GherkinIndex
