import GrammarSearch.Digest.Sha256

/-!
# Search graphs

A search runs over a graph that is given by its root and by a function from
nodes to their children in order, so it may be infinite. Nodes are identified
by fingerprints: a search that suppresses duplicates takes nodes with one
fingerprint for one node.
-/

namespace GrammarSearch

/-- Nodes with a digest of what identifies them. -/
class Fingerprinted (N : Type) where
  fingerprint : N → Digest

/-- A graph that is unfolded from its root. A node without children is a dead end. -/
structure Graph (N : Type) where
  root : N
  expand : N → List N

end GrammarSearch
