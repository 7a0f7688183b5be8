import GraphGrammar.Pattern.Constraint

/-!
# Counting half edges within the limit of counts

The edges around a node are counted in half units. A sum of counts that would be above
`GraphGrammar.countLimit` is refused, and for a double that would be the limit is taken.

## Main definitions

* `GraphGrammar.Constraint.halfEdgeCount?`, `GraphGrammar.Constraint.compareAround?` — the number of
  edges around a node, and the judgement on it.
-/

namespace GraphGrammar

namespace Constraint

/-- The number of edges around a node that pass both filters, in half units, if neither the node nor
a sum on the way is out of range. -/
def halfEdgeCount? (t : GraphView) (v : Nat) (nodeLabels edgeLabels : SortedSet String) :
    Option Nat := do
  let around ← t.incident? v
  (around.filter fun e => passes edgeLabels e.label && passes nodeLabels (t.label e.node)).foldlM
    (fun halves e => addCounts? halves (if e.node == v then 1 else 2)) 0

/-- The judgement on the number of edges around a node. -/
def compareAround? (t : GraphView) (v : Nat) (op : Comparison) (count : Nat)
    (nodeLabels edgeLabels : SortedSet String) : Option Bool :=
  (halfEdgeCount? t v nodeLabels edgeLabels).map fun halves => op.compare halves (doubleCount count)

end Constraint

end GraphGrammar
