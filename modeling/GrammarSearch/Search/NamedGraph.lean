import GrammarSearch.Binary64.Basic
import GrammarSearch.Digest.Domain
import GrammarSearch.Search.Graph

/-!
# Graphs of named nodes

A graph that is written down node by node. A node has a name and a key, which
identifies it in a search: two names with one key are taken for one node.
-/

namespace GrammarSearch

/-- A node with its name and what identifies it. -/
structure NamedNode where
  name : String
  key : String
deriving DecidableEq

instance : Fingerprinted NamedNode where
  fingerprint node := Domain.searchNode.digest node.key.toUTF8

/-- A graph given by names: the root, the children of names, the keys of names that differ from
the name itself, the names of goals, the failures of the goal predicate, and costs. -/
structure NamedGraph where
  root : String
  edges : List (String × List String)
  keys : List (String × String)
  goals : List String
  failures : List (String × String)
  costs : List (String × Binary64)

namespace NamedGraph

/-- The node of a name. -/
def node (g : NamedGraph) (name : String) : NamedNode :=
  ⟨name, (g.keys.lookup name).getD name⟩

/-- The graph of the nodes. -/
def toGraph (g : NamedGraph) : Graph NamedNode where
  root := g.node g.root
  expand node := ((g.edges.lookup node.name).getD []).map g.node

/-- A node is a goal, unless the predicate fails at it with a message. -/
def isGoal (g : NamedGraph) (node : NamedNode) : Except String Bool :=
  match g.failures.lookup node.name with
  | some message => .error message
  | none => .ok (g.goals.contains node.name)

/-- The cost of a node, zero if none is given. -/
def cost (g : NamedGraph) (node : NamedNode) : Binary64 :=
  (g.costs.lookup node.name).getD .zero

end NamedGraph

end GrammarSearch
