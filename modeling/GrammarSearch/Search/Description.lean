import GrammarSearch.Grammar.Basic
import GrammarSearch.Search.PartialProgram
import GrammarSearch.Text.Quoted

/-!
# Descriptions

Diagnostics can show a partial program with everything that belongs to it. A
description spells a value out with the names of its forms and fields.
-/

namespace GrammarSearch

/-- Descriptions between brackets, separated by commas. -/
def describeList (items : List String) : String :=
  "[" ++ String.intercalate ", " items ++ "]"

namespace Ty

mutual

/-- A type spelled out. -/
def description : Ty → String
  | .atomic name => "Atomic(" ++ quoted name ++ ")"
  | .list element => "List(" ++ element.description ++ ")"
  | .tensor element shape =>
    "Tensor \x7b element: " ++ element.description ++ ", shape: " ++
      describeList (shape.map fun d => toString d.toNat) ++ " \x7d"
  | .arrow inputs output =>
    "Arrow \x7b inputs: " ++ describeList (descriptions inputs) ++ ", output: " ++
      output.description ++ " \x7d"

/-- Types spelled out. -/
def descriptions : List Ty → List String
  | [] => []
  | t :: ts => t.description :: descriptions ts

end

end Ty

namespace Program

mutual

/-- A program spelled out. -/
def description : Program → String
  | .node symbol children =>
    "SExpression \x7b symbol: " ++ quoted symbol ++ ", children: " ++
      describeList (descriptions children) ++ " \x7d"

/-- Programs spelled out. -/
def descriptions : List Program → List String
  | [] => []
  | p :: ps => p.description :: descriptions ps

end

end Program

/-- A scope spelled out. -/
def Scope.description : Scope → String
  | .strict env =>
    "Strict(Environment \x7b elements: \x7b" ++
      String.intercalate ", "
        (env.bindings.map fun b => toString b.1 ++ ": " ++ b.2.description) ++
      "\x7d \x7d)"
  | .permissive => "Permissive(PermissiveEnvironment)"

/-- A scoped type spelled out. -/
def ScopedTy.description (s : ScopedTy) : String :=
  "TypeWithEnvironment \x7b ty: " ++ s.ty.description ++ ", env: " ++ s.scope.description ++
    " \x7d"

/-- A hole spelled out. -/
def Hole.description (h : Hole) : String :=
  "Hole \x7b id: " ++ toString h.id ++ ", ty: " ++ h.type.description ++ ", path: " ++
    describeList (h.path.map toString) ++ " \x7d"

/-- A partial program of a grammar and a target type spelled out. -/
def PartialProgram.description (p : PartialProgram) (grammarName : String) (target : Ty) :
    String :=
  "DslSearchNode \x7b dsl: " ++ quoted grammarName ++ ", target: " ++ target.description ++
    ", program: " ++ p.program.description ++ ", holes: " ++
    describeList (p.holes.map Hole.description) ++ ", .. \x7d"

end GrammarSearch
