import GrammarSearch.Search.Graph
import GrammarSearch.Search.Policy
import Std.Data.TreeSet

/-!
# Frontiers

A frontier holds the nodes that a search has found and not yet expanded. Which
of them comes out next is the frontier's own affair; that a node with the
fingerprint of an earlier one is not let in is common to all frontiers that
suppress duplicates, and stays so after the earlier one has come out.
-/

namespace GrammarSearch

/-- A node in a frontier: the depth it was found at and the key it is ordered by. -/
structure Entry (N K : Type) where
  node : N
  depth : Nat
  key : K

/-- The fingerprints let in so far. -/
structure Visited where
  dedup : Dedup
  seen : Std.TreeSet Nat

namespace Visited

/-- Nothing was let in. -/
def empty (dedup : Dedup) : Visited := ⟨dedup, ∅⟩

/-- Whether a fingerprint is let in, and the fingerprints let in afterwards. -/
def enlist (v : Visited) (fingerprint : Digest) : Bool × Visited :=
  match v.dedup with
  | .off => (true, v)
  | .structural =>
    let (known, seen) := v.seen.containsThenInsert fingerprint.value
    (!known, { v with seen })

end Visited

/-- What a search needs of a frontier. -/
class Frontier (F : Type) (N K : outParam Type) where
  /-- Offers a node found at a depth: whether it was let in, and the frontier afterwards. -/
  push : F → N → Nat → Bool × F
  /-- The next entry, and the frontier without it. -/
  pop? : F → Option (Entry N K × F)
  /-- The number of entries. -/
  size : F → Nat
  /-- The greatest number of entries so far. -/
  highWater : F → Nat

end GrammarSearch
