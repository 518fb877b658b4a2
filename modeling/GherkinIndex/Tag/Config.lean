import GherkinIndex.Json.Read
import GherkinIndex.Tag.Filter

/-! Filter criteria written as JSON.

    An object with the keys `any`, `all` and `none`, each at most once and in any order, or a list of
    up to three values for them in this order. A value is null, one tag or a list of tags. -/

namespace GherkinIndex.Criteria

/-- One tag or a list of tags; null lists none. -/
def tagsOf : Json → Option (List Text)
  | .null => some []
  | .text t => some [t]
  | .list items => items.mapM fun
    | .text t => some t
    | _ => none
  | _ => none

/-- The tags under a key, none if the key is missing. -/
def entry (fields : List (Text × Json)) (key : String) : Option (List Text) :=
  match fields.lookup key.toList with
  | none => some []
  | some v => tagsOf v

/-- Whether the keys are known and none stands twice. -/
def keysFit (keys : List Text) : Bool :=
  keys.all (["any".toList, "all".toList, "none".toList].contains ·) && keys.eraseDups == keys

def ofJson : Json → Option Criteria
  | .object fields => do
    if keysFit (fields.map (·.1)) then
      return { anyOf := ← entry fields "any", allOf := ← entry fields "all",
               noneOf := ← entry fields "none" }
    else none
  | .list items => match items.mapM tagsOf with
    | some [] => some {}
    | some [any] => some { anyOf := any }
    | some [any, all] => some { anyOf := any, allOf := all }
    | some [any, all, no] => some { anyOf := any, allOf := all, noneOf := no }
    | _ => none
  | _ => none

/-- The criteria of a JSON document. -/
def ofText (t : Text) : Option Criteria := (Json.read t).bind ofJson

end GherkinIndex.Criteria
