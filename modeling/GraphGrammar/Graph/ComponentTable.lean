import GraphGrammar.Graph.Components
import GraphGrammar.Graph.ParentTable

/-!
# Connected components by a table

The endpoints of all edges are united in a table of parents. Then the nodes are looked up in turn,
and a component gets the next number when its first node is met. From the numbers of their
components, the nodes are put together again.

## Main definitions

* `GraphGrammar.ComponentNumbering` — the numbers that were given so far.
* `GraphGrammar.GraphView.numberNodes`, `GraphGrammar.GraphView.numberComponents?` — the numbers of
  the components.
* `GraphGrammar.groupByNumber` — the nodes with each number.
-/

namespace GraphGrammar

/-- The numbers of components that were given so far. -/
structure ComponentNumbering where
  /-- The number of the component that each root stands for, if it has one. -/
  ofRoot : List (Option Nat)
  /-- The numbers of the components of the nodes that were met. -/
  ids : List Nat
  /-- How many numbers were given. -/
  count : Nat

namespace ComponentNumbering

/-- No number was given. -/
def start (n : Nat) : ComponentNumbering := ⟨List.replicate n none, [], 0⟩

/-- Notes the number of the component of the next node. If no node with its root was met, it is a
new number. -/
def meet (s : ComponentNumbering) (root : Nat) : ComponentNumbering :=
  match (s.ofRoot[root]?).join with
  | some k => { s with ids := s.ids ++ [k] }
  | none => ⟨s.ofRoot.set root (some s.count), s.ids ++ [s.count], s.count + 1⟩

end ComponentNumbering

namespace GraphView

variable (g : GraphView)

/-- Unites the endpoints of all edges, looks up all nodes, and numbers their components. -/
def numberNodes : TableCall ComponentNumbering := do
  forM (List.range g.nodeCount) fun v =>
    ParentTable.unionAll ((g.incident v).map fun e => (v, e.node))
  let roots ← (List.range g.nodeCount).mapM ParentTable.find
  return roots.foldl ComponentNumbering.meet (ComponentNumbering.start g.nodeCount)

/-- The number of the component of each node, and the number of components. -/
def numberComponents? : Option (List Nat × Nat) :=
  (g.numberNodes.run' (ParentTable.singletons g.nodeCount)).map fun s => (s.ids, s.count)

end GraphView

/-- The nodes with each of the numbers below `count`, where `ids` lists the numbers of the nodes. -/
def groupByNumber (ids : List Nat) (count : Nat) : List (List Nat) :=
  ids.zipIdx.foldl (fun groups node => groups.modify node.1 (· ++ [node.2]))
    (List.replicate count [])

end GraphGrammar
