import GrammarSearch.Binary64.Basic
import GrammarSearch.Search.PartialProgram

/-!
# Costs of partial programs

The cost functions that a best-first search of programs is usually given: a
measure of the program, a table of whole programs, or a sum of weights of
symbols, added from left to right in pre-order.
-/

namespace GrammarSearch

/-- A function from partial programs to costs. -/
inductive ProgramCost
  | zero
  /-- The number of nodes. -/
  | size
  /-- The negated number of nodes. -/
  | negativeSize
  /-- The number of open holes. -/
  | holes
  /-- The height of the program. -/
  | height
  /-- The number of filled holes. -/
  | filled
  /-- A cost for every text of a program, and one for all other programs. -/
  | byText (table : List (String × Binary64)) (other : Binary64)
  /-- The sum of a weight for every symbol, and one for all other symbols. -/
  | bySymbols (table : List (String × Binary64)) (other : Binary64)

/-- The cost of a partial program. -/
def ProgramCost.of : ProgramCost → PartialProgram → Binary64
  | .zero, _ => .zero
  | .size, p => .ofNat p.program.nodeCount
  | .negativeSize, p => (Binary64.ofNat p.program.nodeCount).neg
  | .holes, p => .ofNat p.holes.length
  | .height, p => .ofNat p.program.depth
  | .filled, p => .ofNat p.filledCount
  | .byText table other, p => (table.lookup (p.program.text .bare)).getD other
  | .bySymbols table other, p =>
    p.program.symbols.foldl (fun cost s => cost.add ((table.lookup s).getD other)) .zero

end GrammarSearch
