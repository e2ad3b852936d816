import GrammarSearch.Binary64.Basic
import GrammarSearch.Search.Frontier.Basic
import GrammarSearch.Search.Frontier.Heap

/-!
# The frontier of best-first search

Nodes come out by cost, the cheapest first, and among nodes of equal cost in
the order in which they were let in. Nodes are numbered as they are let in, so
no two of them are tied.
-/

namespace GrammarSearch

/-- What nodes are ordered by: their cost, then their number. -/
structure Key where
  cost : Binary64
  order : Nat
deriving DecidableEq

namespace Key

instance : Ord Key where
  compare a b := (compare a.cost b.cost).then (compare a.order b.order)

/-- The first key does not come after the second. -/
def le (a b : Key) : Bool := (compare a b).isLE

end Key

/-- A frontier in order of cost. -/
structure BestFirst (N : Type) where
  heap : Heap (Entry N Key)
  visited : Visited
  nextOrder : Nat
  highWater : Nat

namespace BestFirst

variable {N : Type}

/-- The frontier of a search that has found nothing. -/
def empty (dedup : Dedup) : BestFirst N := ⟨.empty, .empty dedup, 0, 0⟩

/-- Entries are ordered by their keys. -/
def entryLe (a b : Entry N Key) : Bool := a.key.le b.key

/-- Offers a node found at a depth. -/
def push [Fingerprinted N] (f : BestFirst N) (node : N) (depth : Nat) (cost : Binary64) :
    Bool × BestFirst N :=
  match f.visited.enlist (Fingerprinted.fingerprint node) with
  | (false, _) => (false, f)
  | (true, visited) =>
    let heap := f.heap.push entryLe ⟨node, depth, ⟨cost, f.nextOrder⟩⟩
    (true, ⟨heap, visited, f.nextOrder + 1, max f.highWater heap.size⟩)

/-- The cheapest node, and the frontier without it. -/
def pop? (f : BestFirst N) : Option (Entry N Key × BestFirst N) :=
  (f.heap.pop? entryLe).map fun (entry, heap) => (entry, { f with heap })

/-- The number of entries. -/
def size (f : BestFirst N) : Nat := f.heap.size

end BestFirst

end GrammarSearch
