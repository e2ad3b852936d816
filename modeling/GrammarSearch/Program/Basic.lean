import GrammarSearch.Json.Canonical
import GrammarSearch.Digest.Domain

/-!
# Programs

A program is a tree of symbols: a symbol applied to any number of programs. A
leaf whose symbol starts with `$` is a hole, where a search has still to choose
a symbol. Programs are compared by structure and ordered by symbol first and
then by children from left to right.
-/

namespace GrammarSearch

/-- A symbol applied to programs. -/
inductive Program
  | node (symbol : String) (children : List Program)
deriving Inhabited

/-- A symbol names a hole or a pattern variable. -/
def isVariable (symbol : String) : Bool :=
  symbol.toList.head? == some '$'

namespace Program

/-- The symbol at the root. -/
def symbol : Program → String
  | .node symbol _ => symbol

/-- The programs that the root is applied to. -/
def children : Program → List Program
  | .node _ children => children

/-- A symbol applied to nothing. -/
def leaf (symbol : String) : Program := .node symbol []

/-- The root is applied to nothing. -/
def isLeaf (p : Program) : Bool := p.children.isEmpty

/-- The program is a hole. -/
def isHole (p : Program) : Bool := p.isLeaf && isVariable p.symbol

/-! ## Equality and order -/

mutual

/-- Structural equality. -/
def beq : Program → Program → Bool
  | .node s ps, .node t qs => s == t && beqList ps qs

/-- Structural equality of lists of programs. -/
def beqList : List Program → List Program → Bool
  | [], [] => true
  | p :: ps, q :: qs => p.beq q && beqList ps qs
  | _, _ => false

end

mutual

theorem beq_iff : ∀ {p q : Program}, p.beq q = true ↔ p = q
  | .node s ps, .node t qs => by simp [beq, beqList_iff (l := ps)]

theorem beqList_iff : ∀ {l m : List Program}, beqList l m = true ↔ l = m
  | [], [] => by simp [beqList]
  | p :: ps, q :: qs => by simp [beqList, beq_iff (p := p), beqList_iff (l := ps)]
  | [], _ :: _ | _ :: _, [] => by simp [beqList]

end

instance : DecidableEq Program := fun _ _ => decidable_of_iff _ beq_iff

mutual

/-- The order of programs. -/
protected def compare : Program → Program → Ordering
  | .node s ps, .node t qs => (Ord.compare s t).then (compareList ps qs)

/-- The lexicographic order of lists of programs. -/
def compareList : List Program → List Program → Ordering
  | [], [] => .eq
  | [], _ :: _ => .lt
  | _ :: _, [] => .gt
  | p :: ps, q :: qs => (p.compare q).then (compareList ps qs)

end

instance : Ord Program := ⟨Program.compare⟩

/-! ## Measures -/

mutual

/-- The symbols of a program in pre-order. -/
def symbols : Program → List String
  | .node symbol children => symbol :: symbolsList children

/-- The symbols of programs from left to right. -/
def symbolsList : List Program → List String
  | [] => []
  | p :: ps => p.symbols ++ symbolsList ps

end

mutual

/-- The number of nodes of a program. -/
def nodeCount : Program → Nat
  | .node _ children => 1 + nodeCountList children

/-- The number of nodes of programs. -/
def nodeCountList : List Program → Nat
  | [] => 0
  | p :: ps => p.nodeCount + nodeCountList ps

end

mutual

/-- The height of a program; a leaf has height one. -/
def depth : Program → Nat
  | .node _ children => 1 + maxDepth children

/-- The greatest height among programs, zero for none. -/
def maxDepth : List Program → Nat
  | [] => 0
  | p :: ps => max p.depth (maxDepth ps)

end

/-! ## Identity -/

mutual

/-- A program as a JSON value. -/
def toJson : Program → Json
  | .node symbol children =>
    .object [("children", .array (toJsonList children)), ("symbol", .text symbol)]

/-- Programs as JSON values. -/
def toJsonList : List Program → List Json
  | [] => []
  | p :: ps => p.toJson :: toJsonList ps

end

/-- The canonical JSON text of a program. -/
def canonical (p : Program) : Except Json.CanonicalError String :=
  p.toJson.canonical

/-- The digest of a program. -/
def fingerprint (p : Program) : Except Json.CanonicalError Digest :=
  p.canonical.map fun text => Domain.program.digest text.toUTF8

end Program

end GrammarSearch
