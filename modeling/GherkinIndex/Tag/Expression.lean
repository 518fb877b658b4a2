import GherkinIndex.Tag.Filter

/-! Tag expressions.

    One expression is a comma list of tags and feeds one criterion of a filter:

        ~@a,~@b   none of them        @a,@b   one of them        @a   this one

    Blank items are skipped. A list that mixes negated and plain tags has no meaning, and neither has
    one without tags. -/

namespace GherkinIndex

inductive Expression where
  | noneOf (tags : List Text)
  | anyOf (tags : List Text)
  | allOf (tag : Text)
  deriving DecidableEq

inductive ExpressionError where
  | mixed (raw : Text)
  | empty
  deriving DecidableEq

def ExpressionError.message : ExpressionError → Text
  | .mixed raw => "tag expression `".toList ++ raw ++ "` mixes negated and plain tags".toList
  | .empty => "empty tag expression".toList

namespace Expression

/-- The items of a comma list, trimmed, blank ones left out. -/
def terms (raw : Text) : List Text := ((raw.splitOn ',').map Text.trim).filter (!·.isEmpty)

def isNegated (term : Text) : Bool := term.head? == some '~'

def ofText (raw : Text) : Except ExpressionError Expression :=
  let ts := terms raw
  if ts.isEmpty then .error .empty
  else if ts.all isNegated then .ok (.noneOf (ts.map (·.dropWhile (· == '~'))))
  else if ts.any isNegated then .error (.mixed raw)
  else match ts with
    | [t] => .ok (.allOf t)
    | _ => .ok (.anyOf ts)

end Expression

namespace TagFilter

def addExpression (f : TagFilter) : Expression → TagFilter
  | .noneOf ts => f.forbid ts
  | .anyOf ts => f.needOne ts
  | .allOf t => f.needAll [t]

/-- Adds the expressions in order; the first one without a meaning is the error. -/
def addExpressions (f : TagFilter) : List Text → Except ExpressionError TagFilter
  | [] => .ok f
  | raw :: raws => match Expression.ofText raw with
    | .ok e => (f.addExpression e).addExpressions raws
    | .error e => .error e

def ofExpressions (raws : List Text) : Except ExpressionError TagFilter :=
  unfiltered.addExpressions raws

end TagFilter
end GherkinIndex
