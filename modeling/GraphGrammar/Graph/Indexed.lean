import GraphGrammar.Graph.Renumber

/-!
# Graphs as they are stored

A stored graph keeps three lists: the labels of its nodes, its edges, and for every node the numbers
of the edges that touch it. Calls change the lists one after the other. A call may be refused; what
it changed before it was refused stays changed.

## Main definitions

* `GraphGrammar.EdgeIndex`, `GraphGrammar.EdgeIndex.enter` — the numbers of edges at their
  endpoints.
* `GraphGrammar.IndexedGraph` — a stored graph.
* `GraphGrammar.GraphCall`, `GraphGrammar.GraphCall.perform`, `GraphGrammar.GraphCall.graphAfter` —
  calls on a stored graph.
* `GraphGrammar.IndexedGraph.addNode`, `addEdge`, `setLabel`, `append` — the calls.
* `GraphGrammar.IndexedGraph.ofParts`, `renumber` — stored graphs that are built anew.
* `GraphGrammar.IndexedGraph.incidentIds`, `incident`, `degree`, `selfLoops`, `labelsBetween` —
  reads.
-/

namespace GraphGrammar

/-- For every node the numbers of the edges that touch it. -/
abbrev EdgeIndex := List (List Nat)

/-- Enters the number `k` of an edge between `a` and `b` at both nodes, the number of a self-loop
once. -/
def EdgeIndex.enter (index : EdgeIndex) (a b k : Nat) : EdgeIndex :=
  let index := index.modify a (· ++ [k])
  if a = b then index else index.modify b (· ++ [k])

/-- A stored graph. -/
structure IndexedGraph where
  /-- The labels of the nodes. -/
  labels : List String
  /-- The edges. -/
  edges : List Edge
  /-- The numbers of the edges that touch each node. -/
  index : EdgeIndex
deriving DecidableEq

/-- A call on a stored graph, which gives an answer or is refused. -/
abbrev GraphCall (α : Type) := ExceptT Fault (StateM IndexedGraph) α

/-- The answer of a call, and the graph after it. -/
def GraphCall.perform {α : Type} (call : GraphCall α) (g : IndexedGraph) :
    Except Fault α × IndexedGraph :=
  call.run.run g

/-- The graph after a call that is not refused. -/
def GraphCall.graphAfter {α : Type} (call : GraphCall α) (g : IndexedGraph) :
    Except Fault IndexedGraph :=
  match call.perform g with
  | (.ok _, g) => .ok g
  | (.error fault, _) => .error fault

namespace IndexedGraph

/-- The graph without nodes. -/
def empty : IndexedGraph := ⟨[], [], []⟩

instance : Inhabited IndexedGraph := ⟨empty⟩

/-! ### Calls -/

/-- Refuses a number that is no node. -/
def checkNode (v : Nat) : GraphCall Unit := do
  let g ← get
  if v < g.labels.length then return ()
  else throw (.unknownNode v g.labels.length)

/-- Adds a node. The answer is its number. -/
def addNode (label : String) : GraphCall Nat := do
  let g ← get
  set ({ g with labels := g.labels ++ [label], index := g.index ++ [[]] } : IndexedGraph)
  return g.labels.length

/-- Adds an edge and enters it at its endpoints, which are not checked. The answer is its number. -/
def pushEdge (e : Edge) : GraphCall Nat := do
  let g ← get
  set ({ g with
    edges := g.edges ++ [e]
    index := g.index.enter e.source e.target g.edges.length } : IndexedGraph)
  return g.edges.length

/-- Adds an edge between two nodes. The answer is its number. -/
def addEdge (e : Edge) : GraphCall Nat := do
  checkNode e.source
  checkNode e.target
  pushEdge e

/-- Replaces the label of a node. -/
def setLabel (v : Nat) (label : String) : GraphCall Unit := do
  checkNode v
  modify fun g => { g with labels := g.labels.set v label }

/-- Adds nodes with the given labels. -/
def addNodes (labels : List String) : GraphCall Unit :=
  forM labels fun label => discard (addNode label)

/-- Adds a copy of a graph. The answer is the number of its first node. -/
def append (other : IndexedGraph) : GraphCall Nat := do
  let offset := (← get).labels.length
  addNodes other.labels
  forM other.edges fun e => discard (pushEdge (e.mapNodes (· + offset)))
  return offset

/-! ### Graphs that are built anew -/

/-- Adds nodes with the given labels and then the given edges. -/
def addParts (labels : List String) (edges : List Edge) : GraphCall Unit := do
  addNodes labels
  forM edges fun e => discard (addEdge e)

/-- The graph with the given labels and edges; the first edge with an endpoint that is no node is
reported. -/
def ofParts (labels : List String) (edges : List Edge) : Except Fault IndexedGraph :=
  (addParts labels edges).graphAfter empty

/-- The graph in which the node `v` of `g` has the number `perm[v]`. -/
def renumber (g : IndexedGraph) (perm : List Nat) : Except Fault IndexedGraph :=
  if isPermutation g.labels.length perm then
    ofParts ((List.range g.labels.length).map fun w => g.labels.getD (perm.idxOf w) "")
      (g.edges.map (Edge.mapNodes fun v => perm.getD v v))
  else .error (.notAPermutation g.labels.length perm.length)

/-! ### Reads -/

/-- The numbers of the edges that are entered at a node. -/
def row (g : IndexedGraph) (v : Nat) : List Nat := g.index.getD v []

/-- The numbers of the edges that touch a node. -/
def incidentIds (v : Nat) : GraphCall (List Nat) := do
  checkNode v
  return (← get).row v

/-- The edges around a node. -/
def incident (g : IndexedGraph) (v : Nat) : List Incidence :=
  (g.row v).filterMap fun k => (g.edges[k]?).map fun e => ⟨e.other v, e.label⟩

/-- The number of edges that are entered at a node. -/
def degree (g : IndexedGraph) (v : Nat) : Nat := (g.row v).length

/-- The number of self-loops of a node. -/
def selfLoops (g : IndexedGraph) (v : Nat) : Nat := (g.incident v).countP (·.node == v)

/-- The labels of the edges between two nodes, one for each edge. -/
def labelsBetween (g : IndexedGraph) (a b : Nat) : List String :=
  ((g.incident a).filter (·.node == b)).map (·.label)

end IndexedGraph

end GraphGrammar
