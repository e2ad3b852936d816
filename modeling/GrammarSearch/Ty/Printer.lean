import GrammarSearch.Ty.Basic

/-!
# The text of a type

A name stands for itself, a list is written `[t]`, a tensor `{t, 2, 3}` and an
arrow `(t, u) -> v`. Nothing but arrows puts a type in parentheses, so the text
of a type needs none for grouping.
-/

namespace GrammarSearch

namespace Ty

/-- The dimensions of a tensor, each after a comma. -/
def shapeText : List UInt64 → String
  | [] => ""
  | d :: shape => ", " ++ toString d.toNat ++ shapeText shape

mutual

/-- The text of a type. -/
def text : Ty → String
  | .atomic name => name
  | .list element => "[" ++ element.text ++ "]"
  | .tensor element shape => "\x7b" ++ element.text ++ shapeText shape ++ "\x7d"
  | .arrow inputs output => "(" ++ inputsText inputs ++ ") -> " ++ output.text

/-- The texts of the inputs of an arrow, separated by commas. -/
def inputsText : List Ty → String
  | [] => ""
  | [t] => t.text
  | t :: ts => t.text ++ ", " ++ inputsText ts

end

end Ty

end GrammarSearch
