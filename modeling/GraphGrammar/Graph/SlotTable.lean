import GraphGrammar.Graph.Indexed

/-!
# Arenas as they are stored

A stored arena has a slot for every node and every edge that was ever added. A slot is never given
up: it says whether what it holds is still there. The slot of a node also holds the set of the
numbers of the edges that touch the node, so that an edge that is there stands in its own slot and
in those of its endpoints. Calls change the slots one after the other. A call may be refused; what
it changed before it was refused stays changed.

## Main definitions

* `GraphGrammar.NodeSlot`, `GraphGrammar.EdgeSlot`, `GraphGrammar.SlotTable` — a stored arena.
* `GraphGrammar.SlotCall`, `GraphGrammar.SlotCall.perform` — calls on a stored arena.
* `GraphGrammar.SlotTable.addNode`, `addEdge`, `setLabel`, `removeEdge`, `removeNode`, `extend` —
  the calls.
* `GraphGrammar.SlotTable.compact` — the graph of what is still there.
-/

namespace GraphGrammar

/-- The slot of a node. -/
structure NodeSlot where
  /-- Whether the node is still there. -/
  isAlive : Bool
  /-- The label. -/
  label : String
  /-- The numbers of the edges that touch the node. -/
  incident : SortedSet Nat
deriving DecidableEq

/-- The slot of an edge. -/
structure EdgeSlot where
  /-- Whether the edge is still there. -/
  isAlive : Bool
  /-- The edge. -/
  edge : Edge
deriving DecidableEq

namespace NodeSlot

/-- The slot of a new node, which no edge touches. -/
def fresh (label : String) : NodeSlot := ⟨true, label, ∅⟩

/-- Enters the number of an edge. -/
def enter (i : Nat) (slot : NodeSlot) : NodeSlot := { slot with incident := slot.incident.insert i }

/-- Strikes out the number of an edge. -/
def strike (i : Nat) (slot : NodeSlot) : NodeSlot := { slot with incident := slot.incident.erase i }

end NodeSlot

/-- A stored arena. -/
structure SlotTable where
  /-- The slots of nodes. -/
  nodes : List NodeSlot
  /-- The slots of edges. -/
  edges : List EdgeSlot
deriving DecidableEq

/-- A call on a stored arena, which gives an answer or is refused. -/
abbrev SlotCall (α : Type) := ExceptT Fault (StateM SlotTable) α

/-- The answer of a call, and the arena after it. -/
def SlotCall.perform {α : Type} (call : SlotCall α) (s : SlotTable) : Except Fault α × SlotTable :=
  call.run.run s

namespace SlotTable

/-- The arena without slots. -/
def empty : SlotTable := ⟨[], []⟩

/-! ### Reads -/

variable (s : SlotTable)

/-- The slot of a node that is there. -/
def node (v : Nat) : Except Fault NodeSlot :=
  match (s.nodes[v]?).filter NodeSlot.isAlive with
  | some slot => .ok slot
  | none => .error (.deadNode v)

/-- An edge that is there. -/
def edge (i : Nat) : Except Fault Edge :=
  match (s.edges[i]?).filter EdgeSlot.isAlive with
  | some slot => .ok slot.edge
  | none => .error (.deadEdge i)

/-- Whether a node is there. -/
def holdsNode (v : Nat) : Bool := (s.nodes[v]?).any NodeSlot.isAlive

/-- The number of nodes that are there. -/
def aliveNodes : Nat := s.nodes.countP NodeSlot.isAlive

/-- The number of edges that are there. -/
def aliveEdges : Nat := s.edges.countP EdgeSlot.isAlive

/-- Whether the slot of an edge holds one that satisfies a condition, be it there or not. -/
def slotSatisfies (condition : Edge → Bool) (i : Nat) : Bool :=
  (s.edges[i]?).any fun slot => condition slot.edge

/-- The label of a node. -/
def label (v : Nat) : Except Fault String := return (← s.node v).label

/-- The numbers of the edges that touch a node. -/
def incident (v : Nat) : Except Fault (List Nat) := return (← s.node v).incident.toList

/-- The numbers of the self-loops of a node. -/
def selfLoops (v : Nat) : Except Fault (List Nat) :=
  return (← s.node v).incident.toList.filter (s.slotSatisfies Edge.isSelfLoop)

/-- The numbers of the edges between two nodes. -/
def slotsBetween (v w : Nat) : Except Fault (List Nat) := do
  let _ ← s.node w
  return (← s.node v).incident.toList.filter (s.slotSatisfies fun e => e.connects v w)

/-- The number of the first edge between two nodes with a given label. -/
def slotBetween (v w : Nat) (label : String) : Except Fault (Option Nat) :=
  return (← s.slotsBetween v w).find? (s.slotSatisfies fun e => e.label == label)

/-! ### Calls -/

/-- The slot of a node, which must be there. -/
def readNode (v : Nat) : SlotCall NodeSlot := do MonadExcept.ofExcept ((← get).node v)

/-- The edge in a slot, which must be there. -/
def readEdge (i : Nat) : SlotCall Edge := do MonadExcept.ofExcept ((← get).edge i)

/-- Changes the slot of a node. -/
def modifyNode (v : Nat) (f : NodeSlot → NodeSlot) : SlotCall Unit :=
  modify fun s => { s with nodes := s.nodes.modify v f }

/-- Adds a node. The answer is its number. -/
def addNode (label : String) : SlotCall Nat := do
  let s ← get
  set ({ s with nodes := s.nodes ++ [.fresh label] } : SlotTable)
  return s.nodes.length

/-- Adds an edge and enters it at its endpoints, which are not checked. The answer is its number. -/
def pushEdge (e : Edge) : SlotCall Nat := do
  let s ← get
  let i := s.edges.length
  set ({ s with edges := s.edges ++ [⟨true, e⟩] } : SlotTable)
  modifyNode e.source (·.enter i)
  modifyNode e.target (·.enter i)
  return i

/-- Adds an edge between two nodes. The answer is its number. -/
def addEdge (e : Edge) : SlotCall Nat := do
  let _ ← readNode e.source
  let _ ← readNode e.target
  pushEdge e

/-- Replaces the label of a node. -/
def setLabel (v : Nat) (label : String) : SlotCall Unit := do
  let _ ← readNode v
  modifyNode v fun slot => { slot with label }

/-- Removes an edge. The answer is the edge. -/
def removeEdge (i : Nat) : SlotCall Edge := do
  let e ← readEdge i
  modify fun s => { s with edges := s.edges.modify i fun slot => { slot with isAlive := false } }
  modifyNode e.source (·.strike i)
  modifyNode e.target (·.strike i)
  return e

/-- Removes a node at which no edge is entered. -/
def removeNode (v : Nat) : SlotCall Unit := do
  let slot ← readNode v
  unless slot.incident.isEmpty do
    throw (.nodeNotIsolated v slot.incident.toList.length)
  modifyNode v fun slot => { slot with isAlive := false }

/-- Adds copies of the nodes of a graph whose flags are set. The answer are their numbers, for each
node of the graph. -/
def addKept (t : GraphView) (keep : List Bool) : SlotCall (List (Option Nat)) :=
  (List.range t.nodeCount).mapM fun v =>
    if keep.getD v false then some <$> addNode (t.label v) else return none

/-- Adds copies of the edges of a graph around one of its nodes, as far as they have not been added
at their other endpoint before and both endpoints have copies. -/
def pushAround (t : GraphView) (slots : List (Option Nat)) (v : Nat) : SlotCall Unit :=
  match slots.getD v none with
  | none => return ()
  | some source => forM (t.incident v) fun i =>
    if i.node < v then return ()
    else
      match slots.getD i.node none with
      | none => return ()
      | some target => discard (pushEdge ⟨source, target, i.label⟩)

/-- Adds a copy of a part of a graph: the nodes whose flags are set, and the edges between them. The
answer are the numbers of the copies, for each node of the graph. -/
def extend (t : GraphView) (keep : List Bool) : SlotCall (List (Option Nat)) := do
  let slots ← addKept t keep
  forM (List.range t.nodeCount) (pushAround t slots)
  return slots

/-- A copy of a graph, with the same node numbers. -/
def ofGraph (t : GraphView) : SlotTable :=
  ((extend t (List.replicate t.nodeCount true)).perform empty).2

/-! ### Compaction -/

/-- Adds the nodes that are still there to a graph. The answer are their numbers in it, for each
slot. -/
def compactNodes : GraphCall (List (Option Nat)) :=
  s.nodes.mapM fun slot =>
    if slot.isAlive then some <$> IndexedGraph.addNode slot.label else return none

/-- Adds an edge to a graph, between the new numbers of its endpoints. One that has an endpoint
without a number, or that is refused, is passed over. -/
def compactEdge (remap : List (Option Nat)) (e : Edge) : GraphCall Unit :=
  match (remap[e.source]?).join, (remap[e.target]?).join with
  | some v, some w =>
    tryCatch (discard (IndexedGraph.addEdge ⟨v, w, e.label⟩)) fun _ => return ()
  | _, _ => return ()

/-- Builds the graph of what is still there. The answer are the numbers of the nodes in it, for each
slot. -/
def compactInto : GraphCall (List (Option Nat)) := do
  let remap ← s.compactNodes
  forM (s.edges.filter EdgeSlot.isAlive) fun slot => compactEdge remap slot.edge
  return remap

/-- The graph of the nodes and edges that are still there, and the numbers of the nodes in it. -/
def compact : Except Fault (List (Option Nat)) × IndexedGraph :=
  s.compactInto.perform IndexedGraph.empty

end SlotTable

end GraphGrammar
