import GraphGrammar.Search.Backtracking

/-!
# The isomorphism test

Two graphs with as many nodes and as many edges are isomorphic when the one occurs in the other:
then no node and no edge is left over. Before the search, the labels, degrees and self-loops of
their nodes are compared.

## Main definitions

* `GraphGrammar.GraphView.nodeTable` — label, degree and self-loops of every node.
* `GraphGrammar.isIsomorphic`.
-/

namespace GraphGrammar

/-- The label, the degree and the number of self-loops of every node. -/
def GraphView.nodeTable (g : GraphView) : List (String × Nat × Nat) :=
  (List.range g.nodeCount).map fun v => (g.label v, g.degree v, g.selfLoops v)

/-- Whether some bijection between the nodes preserves labels and edges. -/
def isIsomorphic (a b : GraphView) : Bool :=
  a.nodeCount == b.nodeCount && a.edgeCount == b.edgeCount && a.nodeTable.isPerm b.nodeTable &&
    (searchOne 1 countHits (Pattern.ofGraph a) none b 0).state == 1

end GraphGrammar
