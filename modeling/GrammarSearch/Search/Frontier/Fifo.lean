import GrammarSearch.Search.Frontier.Basic
import GrammarSearch.Search.Frontier.Queue

/-!
# The frontier of breadth-first search

Nodes come out in the order in which they were let in.
-/

namespace GrammarSearch

/-- A frontier in order of discovery. -/
structure Fifo (N : Type) where
  queue : Queue (Entry N Unit)
  visited : Visited
  highWater : Nat

namespace Fifo

variable {N : Type}

/-- The frontier of a search that has found nothing. -/
def empty (dedup : Dedup) : Fifo N := ⟨.empty, .empty dedup, 0⟩

/-- Offers a node found at a depth. -/
def push [Fingerprinted N] (f : Fifo N) (node : N) (depth : Nat) : Bool × Fifo N :=
  match f.visited.enlist (Fingerprinted.fingerprint node) with
  | (false, _) => (false, f)
  | (true, visited) =>
    let queue := f.queue.push ⟨node, depth, ()⟩
    (true, ⟨queue, visited, max f.highWater queue.size⟩)

/-- The node found first, and the frontier without it. -/
def pop? (f : Fifo N) : Option (Entry N Unit × Fifo N) :=
  f.queue.pop?.map fun (entry, queue) => (entry, { f with queue })

instance [Fingerprinted N] : Frontier (Fifo N) N Unit where
  push := push
  pop? := pop?
  size f := f.queue.size
  highWater f := f.highWater

end Fifo

end GrammarSearch
