import GraphGrammar.Graph.Basic

/-!
# Renumbering

## Main definitions

* `GraphGrammar.isPermutation` — whether a list is a permutation of the numbers below `n`.
* `GraphGrammar.Graph.renumber` — the graph with its nodes renumbered.
-/

namespace GraphGrammar

/-- Whether a list holds every number below `n` exactly once. -/
def isPermutation (n : Nat) (perm : List Nat) : Bool :=
  perm.length == n && perm.all (· < n) && decide perm.Nodup

/-- The graph in which the node `v` of `g` has the number `perm[v]`. Edges keep their order, and
their endpoints the order in which they were given. -/
def Graph.renumber (g : Graph) (perm : List Nat) : Except Fault Graph :=
  if isPermutation g.nodeCount perm then
    Graph.ofParts ((List.range g.nodeCount).map fun w => g.labels.getD (perm.idxOf w) "")
      (g.edges.map (Edge.mapNodes fun v => perm.getD v v))
  else .error (.notAPermutation g.nodeCount perm.length)

end GraphGrammar
