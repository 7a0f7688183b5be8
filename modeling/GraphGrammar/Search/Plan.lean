import GraphGrammar.Pattern.Basic

/-!
# Search plans

A search places the nodes of a pattern one after the other. The next node is the one with most
edges to placed nodes; a node without any is only taken when there is no other, and so every
component of the pattern is finished before the next begins. For each node the plan holds what its
image has to satisfy by then.

## Main definitions

* `GraphGrammar.Pattern.placingOrder` — the order in which nodes are placed.
* `GraphGrammar.PlannedNode` — what is asked of the image of a node.
* `GraphGrammar.Pattern.plan?` — the plan of a pattern.
-/

namespace GraphGrammar

namespace GraphView

variable (g : GraphView) (weight : Nat → Nat)

/-- The number of edges from `v` to placed nodes. -/
def linksInto (placed : List Nat) (v : Nat) : Nat :=
  (g.incident v).countP fun e => placed.contains e.node

/-- Whether `v` is placed rather than `w`: because it has more edges to placed nodes, or as many and
more weight, or as much and a greater degree. -/
def outranks (placed : List Nat) (v w : Nat) : Bool :=
  ((compare (g.linksInto placed v) (g.linksInto placed w)).then
    ((compare (weight v) (weight w)).then (compare (g.degree v) (g.degree w)))).isGT

/-- The node among `v` and those of a list that is placed next. Of equals the first is taken. -/
def nextNode (placed : List Nat) (v : Nat) (rest : List Nat) : Nat :=
  rest.foldl (fun best w => if g.outranks weight placed w best then w else best) v

theorem nextNode_mem (placed : List Nat) (v : Nat) (rest : List Nat) :
    g.nextNode weight placed v rest ∈ v :: rest := by
  induction rest generalizing v with
  | nil => exact List.mem_cons_self ..
  | cons w rest ih =>
    rw [nextNode, List.foldl_cons]
    have := ih (if g.outranks weight placed w v then w else v)
    rw [nextNode] at this
    rcases List.mem_cons.mp this with h | h
    · rw [h]
      split <;> simp
    · exact List.mem_cons_of_mem _ (List.mem_cons_of_mem _ h)

/-- The order in which the remaining nodes are placed after those of `placed`. -/
def arrange (placed remaining : List Nat) : List Nat :=
  match remaining with
  | [] => []
  | v :: rest =>
    g.nextNode weight placed v rest ::
      arrange (placed ++ [g.nextNode weight placed v rest])
        ((v :: rest).erase (g.nextNode weight placed v rest))
termination_by remaining.length
decreasing_by
  rw [List.length_erase_of_mem (g.nextNode_mem weight placed v rest)]
  simp

/-- The order in which all nodes are placed. -/
def placingOrder : List Nat := g.arrange weight [] (List.range g.nodeCount)

end GraphView

/-- What is asked of the image of one node of a pattern. -/
structure PlannedNode where
  /-- The node to be placed. -/
  node : Nat
  /-- The neighbour that was placed first; the image is sought next to its image. -/
  parent : Option Nat
  /-- The neighbours that were placed before, with the labels of the edges to them. -/
  links : List (Nat × List String)
  /-- The labels of the self-loops. -/
  loops : List String
  /-- The number of edges to other nodes. -/
  plainDegree : Nat
  /-- The constraints whose last node is this one. -/
  checks : List Constraint

namespace Pattern

/-- The weight of a node: how often constraints refer to it. -/
def weight (p : Pattern) (v : Nat) : Nat := (p.constraints.flatMap Constraint.nodes).count v

/-- The step that places `v` after the nodes of `placed`. -/
def step (p : Pattern) (placed : List Nat) (v : Nat) : PlannedNode :=
  let earlier := placed.filter fun u => p.graph.hasEdge v u
  let loops := p.graph.labelsBetween v v
  { node := v
    parent := earlier.head?
    links := earlier.map fun u => (u, p.graph.labelsBetween v u)
    loops := loops
    plainDegree := p.graph.degree v - loops.length
    checks := p.constraints.filter fun c =>
      c.nodes.contains v && c.nodes.all fun u => u == v || placed.contains u }

/-- The steps that place the nodes of a list after those of `placed`. -/
def steps (p : Pattern) (placed : List Nat) : List Nat → List PlannedNode
  | [] => []
  | v :: rest => p.step placed v :: p.steps (placed ++ [v]) rest

/-- The order in which the nodes of a pattern are placed. -/
def placingOrder (p : Pattern) : List Nat := p.graph.placingOrder p.weight

/-- The plan of a pattern. A pattern without nodes needs no steps. Any other has a plan only if its
constraints refer to its nodes. -/
def plan? (p : Pattern) : Option (List PlannedNode) :=
  if p.graph.nodeCount = 0 then some []
  else if p.inRange then some (p.steps [] p.placingOrder)
  else none

end Pattern

end GraphGrammar
