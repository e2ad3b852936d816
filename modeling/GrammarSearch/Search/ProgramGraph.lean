import GrammarSearch.Grammar.Basic
import GrammarSearch.Search.PartialProgram

/-!
# The graph of programs

A grammar and a target type make a graph of partial programs. Its root is one
hole of the target type, and a partial program has a child for every production
that returns the type of its first hole, in the order of declaration. A program
without holes has no children.
-/

namespace GrammarSearch

variable {V : Type}

/-- The children of a partial program. -/
def Grammar.expand (g : Grammar V) (p : PartialProgram) : List PartialProgram :=
  match p.selected? with
  | none => []
  | some hole =>
    (g.returning hole.type.ty).filterMap fun production =>
      p.fill? production.symbol production.signature.arguments

/-- The graph of the partial programs of a target type. -/
def programGraph (g : Grammar V) (target : ScopedTy) : Graph PartialProgram where
  root := .root target
  expand := g.expand

/-- The report of a partial program whose first hole no production fills. -/
def PartialProgram.deadEnd? (p : PartialProgram) : Option Notice :=
  p.selected?.map fun hole =>
    ⟨.trace, "dead end at " ++ p.program.text .bare ++ ": no production returns " ++
      hole.type.ty.text⟩

end GrammarSearch
