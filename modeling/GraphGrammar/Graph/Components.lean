import GraphGrammar.Graph.DisjointSets
import GraphGrammar.Graph.View

/-!
# Connected components

Components are found in two ways. `GraphGrammar.GraphView.componentNumbers` unites the endpoints of
all edges in a forest of disjoint sets. `GraphGrammar.GraphView.sweptComponents` walks the graph
from node to node. Both order the components by their smallest nodes.

## Main definitions

* `GraphGrammar.GraphView.componentForest`, `componentNumbers`, `components`.
* `GraphGrammar.GraphView.sweep`, `sweptComponents`.
-/

namespace GraphGrammar

namespace GraphView

variable (g : GraphView)

/-! ### By uniting endpoints -/

/-- The nodes, united along all edges. -/
def componentForest : DisjointSets :=
  (List.range g.nodeCount).foldl
    (fun s v => (g.incident v).foldl (fun s e => s.union v e.node) s)
    (DisjointSets.singletons g.nodeCount)

/-- The smallest nodes of the components, in ascending order. -/
def componentRoots (s : DisjointSets) : List Nat :=
  (List.range g.nodeCount).filter fun v => s.root v == v

/-- The number of the component of each node, and the number of components. Components are numbered
in the order of their smallest nodes. -/
def componentNumbers : List Nat × Nat :=
  let s := g.componentForest
  let roots := g.componentRoots s
  ((List.range g.nodeCount).map fun v => roots.idxOf (s.root v), roots.length)

/-- The components as lists of nodes. -/
def components : List (List Nat) :=
  let s := g.componentForest
  (g.componentRoots s).map fun r => (List.range g.nodeCount).filter fun v => s.root v == r

/-! ### By walking -/

/-- The members of a list that share an edge with `v`. -/
def besides (v : Nat) (l : List Nat) : List Nat := l.filter fun w => g.hasEdge v w

/-- The members of a list that share no edge with `v`. -/
def apart (v : Nat) (l : List Nat) : List Nat := l.filter fun w => !g.hasEdge v w

theorem length_besides_add_length_apart (v : Nat) (l : List Nat) :
    (g.besides v l).length + (g.apart v l).length = l.length := by
  induction l with
  | nil => rfl
  | cons w l ih =>
    simp only [besides, apart, List.filter_cons] at ih ⊢
    cases g.hasEdge v w <;> simp <;> omega

/-- Walks on from the nodes of `queue`. Every step takes the first of them and adds the unseen nodes
next to it at the end. The result is what was visited, and what of `unseen` was not. -/
def sweep (unseen queue : List Nat) : List Nat × List Nat :=
  match queue with
  | [] => ([], unseen)
  | v :: queue =>
    let found := sweep (g.apart v unseen) (queue ++ g.besides v unseen)
    (v :: found.1, found.2)
termination_by unseen.length + queue.length
decreasing_by
  have := g.length_besides_add_length_apart v unseen
  simp only [List.length_append, List.length_cons]
  omega

theorem length_sweep_le (unseen queue : List Nat) :
    (g.sweep unseen queue).2.length ≤ unseen.length := by
  fun_induction sweep g unseen queue with
  | case1 => exact Nat.le_refl _
  | case2 unseen v queue found ih =>
    have := g.length_besides_add_length_apart v unseen
    exact Nat.le_trans ih (by omega)

/-- The components of the unseen nodes. -/
def sweepAll (unseen : List Nat) : List (List Nat) :=
  match unseen with
  | [] => []
  | v :: unseen =>
    let found := g.sweep unseen [v]
    found.1.mergeSort :: sweepAll found.2
termination_by unseen.length
decreasing_by
  have := g.length_sweep_le unseen [v]
  simp only [List.length_cons]
  omega

/-- The components as lists of nodes, found by walking. -/
def sweptComponents : List (List Nat) := g.sweepAll (List.range g.nodeCount)

end GraphView

end GraphGrammar
