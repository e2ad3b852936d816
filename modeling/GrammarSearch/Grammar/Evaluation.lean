import GrammarSearch.Grammar.Basic

/-!
# Evaluation

A program is evaluated in two passes. The first checks it against the grammar
and prepares a state for every use of a production; the second computes it from
the leaves up. Both visit children from left to right and before their parent,
and both stop at the first fault. The second pass trusts nothing that the first
established, so it may be given any prepared program.
-/

namespace GrammarSearch

/-- A program with a state for the production used at every node. -/
inductive Prepared (V : Type)
  | node (symbol : String) (children : List (Prepared V)) (state : UseState V)

namespace Prepared

variable {V : Type}

mutual

/-- The number of nodes whose state holds parameters. -/
def parameterizedCount : Prepared V → Nat
  | .node _ children state =>
    (if state.isParameterized then 1 else 0) + parameterizedCountList children

/-- The number of such nodes in prepared programs. -/
def parameterizedCountList : List (Prepared V) → Nat
  | [] => 0
  | p :: ps => p.parameterizedCount + parameterizedCountList ps

end

end Prepared

namespace Grammar

variable {V : Type}

/-- The production that a node of a program uses: its symbol must not be a hole, must be known,
and must take as many inputs as the node has children. -/
def productionAt (g : Grammar V) (p : Program) : Except GrammarError (Production V) :=
  if p.isHole then .error (.holeInProgram p.symbol)
  else
    match g.production? p.symbol with
    | none => .error (.unknownSymbol p.symbol)
    | some production =>
      if production.arity ≠ p.children.length then
        .error (.arityMismatch p.symbol production.arity p.children.length)
      else .ok production

mutual

/-- Prepares a program, when parameters were made `serial` times before. A node is checked
before its children and prepared after them. -/
def prepare (g : Grammar V) (serial : Nat) : Program → Traced V (Prepared V)
  | .node symbol children =>
    match g.productionAt (.node symbol children) with
    | .error e => .ofExcept (.error e)
    | .ok production =>
      let below := prepareList g serial children
      below.bind fun children =>
        (production.prepare (serial + below.preparations)).map (.node symbol children)

/-- Prepares programs from left to right. -/
def prepareList (g : Grammar V) (serial : Nat) : List Program → Traced V (List (Prepared V))
  | [] => .ofExcept (.ok [])
  | p :: ps =>
    let first := prepare g serial p
    first.bind fun p => (prepareList g (serial + first.preparations) ps).map (p :: ·)

end

mutual

/-- The value of a prepared program. -/
def compute (g : Grammar V) : Prepared V → Traced V V
  | .node symbol children state =>
    match g.production? symbol with
    | none => .ofExcept (.error (.unknownSymbol symbol))
    | some production => (computeList g children).bind (production.compute state)

/-- The values of prepared programs from left to right. -/
def computeList (g : Grammar V) : List (Prepared V) → Traced V (List V)
  | [] => .ofExcept (.ok [])
  | p :: ps => (compute g p).bind fun value => (computeList g ps).map (value :: ·)

end

/-- The value of a program, when parameters were made `serial` times before. -/
def evaluate (g : Grammar V) (serial : Nat) (p : Program) : Traced V V :=
  (g.prepare serial p).bind g.compute

end Grammar

end GrammarSearch
