import GraphGrammar.Graph.Basic
import GraphGrammar.Random.Uniform

/-!
# Random graphs

## Main definitions

* `GraphGrammar.SampleShape` and `GraphGrammar.Graph.sample` — a random graph of a given size.
-/

namespace GraphGrammar

/-- What a random graph is drawn from. -/
structure SampleShape where
  /-- The number of nodes. -/
  nodes : Nat
  /-- The number of edges. -/
  edges : Nat
  /-- The labels for nodes. -/
  nodeLabels : List String
  /-- The labels for edges. -/
  edgeLabels : List String
  /-- Whether self-loops are allowed. -/
  selfLoops : Bool

namespace SampleShape

/-- Refuses a shape that no graph has. -/
def check (shape : SampleShape) : Except Fault Unit :=
  if shape.nodeLabels.isEmpty || shape.edgeLabels.isEmpty then .error .emptyLabelPool
  else if shape.nodes = 0 ∧ 0 < shape.edges then .error .noNodesForEdges
  else if shape.nodes = 1 ∧ 0 < shape.edges ∧ shape.selfLoops = false then
    .error (.noEdgeSlot shape.edges)
  else .ok ()

/-- Draws `count` node labels. -/
def drawLabels (shape : SampleShape) (count : Nat) (s : KeyStream) : List String × KeyStream :=
  match count with
  | 0 => ([], s)
  | count + 1 =>
    let (label, s) := s.choose shape.nodeLabels
    let (labels, s) := shape.drawLabels count s
    (label :: labels, s)

/-- Draws the endpoints of an edge, again if they are the same node and self-loops are not
allowed. -/
def drawEnds (shape : SampleShape) (attempts : Nat) (s : KeyStream) : (Nat × Nat) × KeyStream :=
  let (source, s) := s.longBelow shape.nodes
  let (target, s) := s.longBelow shape.nodes
  match attempts with
  | 0 => ((source, target), s)
  | attempts + 1 =>
    if source = target ∧ shape.selfLoops = false then shape.drawEnds attempts s
    else ((source, target), s)

/-- Draws `count` edges. -/
def drawEdges (shape : SampleShape) (count : Nat) (s : KeyStream) : List Edge × KeyStream :=
  match count with
  | 0 => ([], s)
  | count + 1 =>
    let ((source, target), s) := shape.drawEnds countLimit s
    let (label, s) := s.choose shape.edgeLabels
    let (edges, s) := shape.drawEdges count s
    (⟨source, target, label⟩ :: edges, s)

end SampleShape

/-- A random graph, and the stream after it was drawn. A refused shape leaves the stream as it
was. -/
def Graph.sample (shape : SampleShape) (s : KeyStream) : Except Fault (Graph × KeyStream) := do
  shape.check
  let (labels, s) := shape.drawLabels shape.nodes s
  let (edges, s) := shape.drawEdges shape.edges s
  return (← Graph.ofParts labels edges, s)

end GraphGrammar
