import GherkinIndex.Text.Basic

/-! YAML values.

    A document comes to a value: a scalar, a list or a map. A scalar is a text, and it may stand for
    something besides: nothing, a truth value or a number.

        ~   nothing        true   a truth value        0x1F   a number        "true"   a text -/

namespace GherkinIndex

namespace Yaml

/-- What a scalar stands for. -/
inductive Meaning where
  | nothing
  | truth (b : Bool)
  /-- A natural number of at most 64 bits. -/
  | count (n : Nat)
  | text
  /-- Any other number, or a value of some other kind. -/
  | other
  deriving DecidableEq

structure Scalar where
  text : Text
  meaning : Meaning
  deriving DecidableEq

end Yaml

/-- The keys of a map are texts, in the order of writing. -/
inductive Yaml where
  | scalar (s : Yaml.Scalar)
  | list (items : List Yaml)
  | map (fields : List (Text × Yaml))

namespace Yaml

/-- What stands where nothing is written. -/
def nothing : Yaml := .scalar ⟨[], .nothing⟩

end Yaml
end GherkinIndex
