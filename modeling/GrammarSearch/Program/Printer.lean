import GrammarSearch.Program.Basic

/-!
# The text of a program

An application is written as a list, `(add one (neg one))`, and a leaf as its
symbol. In the marked style a leaf that is no variable is written
`leaf-one` instead, for tools that would otherwise take the call `(one)` and the
name `one` for the same thing.
-/

namespace GrammarSearch

namespace Program

/-- How leaves are written. -/
inductive Style
  | bare
  | marked
deriving DecidableEq

/-- What marks a leaf in the marked style. -/
def leafMark : String := "leaf-"

/-- The text of a leaf. -/
def leafText (style : Style) (symbol : String) : String :=
  match style with
  | .bare => symbol
  | .marked => if isVariable symbol then symbol else leafMark ++ symbol

mutual

/-- The text of a program. -/
def text (style : Style) : Program → String
  | .node symbol children =>
    if children.isEmpty then leafText style symbol
    else "(" ++ symbol ++ argumentsText style children ++ ")"

/-- The texts of the arguments of an application, each after a space. -/
def argumentsText (style : Style) : List Program → String
  | [] => ""
  | p :: ps => " " ++ p.text style ++ argumentsText style ps

end

end Program

end GrammarSearch
