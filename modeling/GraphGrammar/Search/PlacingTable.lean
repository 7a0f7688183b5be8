import GraphGrammar.Search.Plan

/-!
# Search plans by tables

The nodes of a pattern are placed one after the other. It is kept for every node whether it was
placed, and as long as it was not, how many edges lead from it to placed nodes. When a node was
placed, the numbers of its neighbours go up. The places of the nodes in the order are then entered
into a table, every constraint is entered at the last place of its nodes, and a node looks up which
of its neighbours have earlier places.

## Main definitions

* `GraphGrammar.PlacingTable` — how far the nodes were placed.
* `GraphGrammar.GraphView.nextOpen?`, `GraphGrammar.GraphView.tableOrder` — the order of placing.
* `GraphGrammar.Pattern.tableSteps`, `GraphGrammar.Pattern.tablePlan?` — the plan.
-/

namespace GraphGrammar

/-! ### The order of placing -/

/-- How far the nodes of a graph were placed. -/
structure PlacingTable where
  /-- Whether each node was placed. -/
  placed : List Bool
  /-- For each node that was not placed, the number of edges to placed nodes. -/
  links : List Nat
  /-- The placed nodes in order. -/
  order : List Nat

namespace PlacingTable

/-- No node was placed. -/
def start (n : Nat) : PlacingTable := ⟨List.replicate n false, List.replicate n 0, []⟩

/-- Whether a node was not placed yet. -/
def isOpen (s : PlacingTable) (v : Nat) : Bool := s.placed[v]? == some false

/-- The number of edges that were counted for a node. -/
def linksOf (s : PlacingTable) (v : Nat) : Nat := s.links.getD v 0

/-- Counts an edge of the node `v`, which was just placed, for its other endpoint. -/
def countLink (v : Nat) (s : PlacingTable) (e : Incidence) : PlacingTable :=
  if e.node != v && s.isOpen e.node then { s with links := s.links.modify e.node (· + 1) } else s

theorem order_foldl_countLink (s : PlacingTable) (v : Nat) (l : List Incidence) :
    (l.foldl (countLink v) s).order = s.order := by
  induction l generalizing s with
  | nil => rfl
  | cons e l ih =>
    rw [List.foldl_cons, ih, countLink]
    split <;> rfl

end PlacingTable

/-- The last of the greatest members of a list. -/
def lastMax (cmp : Nat → Nat → Ordering) : List Nat → Option Nat
  | [] => none
  | v :: rest => some (rest.foldl (fun best w => if (cmp best w).isLE then w else best) v)

namespace GraphView

variable (g : GraphView) (weight : Nat → Nat)

/-- The order of nodes without edges to placed nodes: by weight, degree and number, the smallest of
which counts most. -/
def compareSeeds (v w : Nat) : Ordering :=
  (compare (weight v) (weight w)).then ((compare (g.degree v) (g.degree w)).then (compare w v))

/-- The order of nodes with edges to placed nodes: first by the number of these. -/
def compareLinked (s : PlacingTable) (v w : Nat) : Ordering :=
  (compare (s.linksOf v) (s.linksOf w)).then (g.compareSeeds weight v w)

/-- The node that is placed next: the best of those with edges to placed nodes, and if there is none
the best of all. -/
def nextOpen? (s : PlacingTable) : Option Nat :=
  let nodes := (List.range g.nodeCount).filter s.isOpen
  match lastMax (g.compareLinked weight s) (nodes.filter fun v => decide (0 < s.linksOf v)) with
  | some v => some v
  | none => lastMax (g.compareSeeds weight) nodes

/-- Places a node. -/
def place (s : PlacingTable) (v : Nat) : PlacingTable :=
  (g.incident v).foldl (PlacingTable.countLink v)
    { s with placed := s.placed.set v true, order := s.order ++ [v] }

theorem order_place (s : PlacingTable) (v : Nat) : (g.place s v).order = s.order ++ [v] :=
  PlacingTable.order_foldl_countLink _ v _

/-- Places nodes until all are placed. -/
def placeAll (s : PlacingTable) : PlacingTable :=
  if s.order.length < g.nodeCount then
    match g.nextOpen? weight s with
    | some v => placeAll (g.place s v)
    | none => s
  else s
termination_by g.nodeCount - s.order.length
decreasing_by
  rw [order_place, List.length_append, List.length_singleton]
  omega

/-- The order in which all nodes are placed. -/
def tableOrder : List Nat := (g.placeAll weight (PlacingTable.start g.nodeCount)).order

end GraphView

/-! ### The plan -/

/-- The places of the numbers below `n` in a list. -/
def placesIn (n : Nat) (order : List Nat) : List Nat :=
  order.zipIdx.foldl (fun places (v, i) => places.set v i) (List.replicate n 0)

namespace Pattern

variable (p : Pattern)

/-- The weight of every node, counted reference by reference, unless a reference is to no node. -/
def weights? : Option (List Nat) :=
  (p.constraints.flatMap Constraint.nodes).foldlM
    (fun weights v =>
      if v < p.graph.nodeCount then some (weights.modify v (· + 1)) else none)
    (List.replicate p.graph.nodeCount 0)

/-- The constraints that fall due at each place: the last one that one of their nodes has. -/
def dueAt (placeOf : Nat → Nat) : List (List Constraint) :=
  p.constraints.foldl
    (fun due c => due.modify (((c.nodes.map placeOf).max?).getD 0) (· ++ [c]))
    (List.replicate p.graph.nodeCount [])

/-- The neighbours of `v` whose places are before `i`, in the order of their places. -/
def earlierNeighbours (placeOf : Nat → Nat) (v i : Nat) : List Nat :=
  ((((p.graph.incident v).filter fun e =>
    e.node != v && decide (placeOf e.node < i)).map (·.node)).mergeSort
      fun u w => decide (placeOf u ≤ placeOf w)).eraseReps

/-- The step that places `v` at the place `i`. -/
def tableStep (placeOf : Nat → Nat) (due : List (List Constraint)) (v i : Nat) : PlannedNode :=
  let earlier := p.earlierNeighbours placeOf v i
  let loops := ((p.graph.incident v).filter (·.node == v)).map (·.label)
  { node := v
    parent := earlier.head?
    links := earlier.map fun u => (u, p.graph.labelsBetween v u)
    loops := loops
    plainDegree := p.graph.degree v - loops.length
    checks := due.getD i [] }

/-- The steps that place the nodes in a given order. -/
def tableSteps (order : List Nat) : List PlannedNode :=
  let places := placesIn p.graph.nodeCount order
  let due := p.dueAt fun v => places.getD v 0
  order.zipIdx.map fun (v, i) => p.tableStep (fun v => places.getD v 0) due v i

/-- The plan of a pattern, if its constraints refer to its nodes. -/
def tablePlan? : Option (List PlannedNode) :=
  p.weights?.map fun weights => p.tableSteps (p.graph.tableOrder fun v => weights.getD v 0)

end Pattern

end GraphGrammar
