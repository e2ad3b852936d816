import GrammarSearch.Search.Frontier.BestFirst
import GrammarSearch.Search.Memo

/-!
# Frontiers with a cost function

A best-first search asks for the cost of every node it finds, whether or not
the node is then let in. The costs may be memoized, which changes nothing but
how often the cost function is computed. A cost function may also have a state
of its own, and answer differently each time that it is asked.
-/

namespace GrammarSearch

/-- A cost function without a state of its own, as it is or memoized. -/
inductive Costs (N : Type)
  | direct (cost : N → Binary64)
  | memoized (memo : Memo N Binary64)

namespace Costs

variable {N : Type} [Fingerprinted N]

/-- The cost of a node, and the cost function afterwards. -/
def get (c : Costs N) (node : N) : Binary64 × Costs N :=
  match c with
  | .direct cost => (cost node, c)
  | .memoized memo =>
    let (cost, memo) := memo.get node
    (cost, .memoized memo)

end Costs

/-- A frontier in order of cost, with the function that gives the costs. -/
structure Costed (N : Type) where
  frontier : BestFirst N
  costs : Costs N

namespace Costed

variable {N : Type} [Fingerprinted N]

/-- The frontier of a search that has found nothing. -/
def empty (dedup : Dedup) (costs : Costs N) : Costed N := ⟨.empty dedup, costs⟩

/-- Offers a node found at a depth, at the cost that the cost function gives it. -/
def push (f : Costed N) (node : N) (depth : Nat) : Bool × Costed N :=
  let (cost, costs) := f.costs.get node
  let (fresh, frontier) := f.frontier.push node depth cost
  (fresh, ⟨frontier, costs⟩)

instance : Frontier (Costed N) N Key where
  push := push
  pop? f := f.frontier.pop?.map fun (entry, frontier) => (entry, { f with frontier })
  size f := f.frontier.size
  highWater f := f.frontier.highWater

end Costed

/-- A frontier in order of cost, with a cost function that has a state: what it answers may depend
on all that it was asked before. -/
structure Stateful (S N : Type) where
  frontier : BestFirst N
  cost : S → N → Binary64 × S
  state : S

namespace Stateful

variable {S N : Type} [Fingerprinted N]

/-- The frontier of a search that has found nothing. -/
def empty (dedup : Dedup) (cost : S → N → Binary64 × S) (state : S) : Stateful S N :=
  ⟨.empty dedup, cost, state⟩

/-- Offers a node found at a depth, at the cost that the cost function gives it now. -/
def push (f : Stateful S N) (node : N) (depth : Nat) : Bool × Stateful S N :=
  let (cost, state) := f.cost f.state node
  let (fresh, frontier) := f.frontier.push node depth cost
  (fresh, { f with frontier, state })

instance : Frontier (Stateful S N) N Key where
  push := push
  pop? f := f.frontier.pop?.map fun (entry, frontier) => (entry, { f with frontier })
  size f := f.frontier.size
  highWater f := f.frontier.highWater

end Stateful

end GrammarSearch
