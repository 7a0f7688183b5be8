import GraphGrammar.Graph.Indexed
import GraphGrammar.Rule.Side

/-!
# The tables of a side

A side of a rule is read from the rule itself, through tables. They hold the rule nodes on the side,
for every rule node its number on the side, and for every node of the side the numbers of the rule
edges around it. An edge that is on the side, but has an endpoint that is not, is passed over. Edges
are renumbered as they are read.

## Main definitions

* `GraphGrammar.SideTable`, `GraphGrammar.SideTable.build` — the tables.
* `GraphGrammar.SideTable.number?`, `label`, `incident`, `degree`, `selfLoops`, `labelsBetween` —
  reads.
* `GraphGrammar.SideTable.constraints` — the constraints that are kept.
* `GraphGrammar.SideTable.toGraph` — a copy of the side.
-/

namespace GraphGrammar

/-- The tables of a side. -/
structure SideTable where
  /-- The rule nodes on the side, in the order of their numbers on it. -/
  members : List Nat
  /-- The number on the side of every rule node, if it is on it. -/
  numbers : List (Option Nat)
  /-- The numbers of the rule edges around every node of the side. -/
  index : EdgeIndex
  /-- The number of edges that were entered. -/
  edgeCount : Nat
deriving DecidableEq

namespace SideTable

/-- The number on the side of a rule node. -/
def number? (t : SideTable) (v : Nat) : Option Nat := (t.numbers[v]?).join

/-! ### Building -/

/-- Gives a rule node the next number, if it is on the side. -/
def enterNode (s : Side) (t : SideTable) (entry : RuleNode × Nat) : SideTable :=
  if s.hasNode entry.1.role then
    { t with
      members := t.members ++ [entry.2]
      numbers := t.numbers.set entry.2 (some t.members.length) }
  else t

/-- Enters a rule edge at its endpoints, if it is on the side and so are they. -/
def enterEdge (s : Side) (t : SideTable) (entry : RuleEdge × Nat) : SideTable :=
  if s.hasEdge entry.1.role then
    match t.number? entry.1.source, t.number? entry.1.target with
    | some a, some b => { t with index := t.index.enter a b entry.2, edgeCount := t.edgeCount + 1 }
    | _, _ => t
  else t

/-- The tables of a side without its edges. -/
def ofNodes (r : Rule) (s : Side) : SideTable :=
  let t := r.nodes.zipIdx.foldl (enterNode s) ⟨[], List.replicate r.nodes.length none, [], 0⟩
  { t with index := List.replicate t.members.length [] }

/-- The tables of a side. -/
def build (r : Rule) (s : Side) : SideTable := r.edges.zipIdx.foldl (enterEdge s) (ofNodes r s)

/-! ### Reads -/

variable (t : SideTable) (r : Rule)

/-- The label of a node. -/
def label (s : Side) (i : Nat) : String :=
  ((t.members[i]?).bind fun v => r.nodes[v]?).elim "" s.label

/-- The edges around a node, renumbered. -/
def incident (i : Nat) : List Incidence :=
  match t.members[i]? with
  | none => []
  | some v => (t.index.getD i []).filterMap fun k => do
    let e ← r.edges[k]?
    some ⟨← t.number? (e.other v), e.label⟩

/-- The number of edges that are entered at a node. -/
def degree (i : Nat) : Nat := (t.index.getD i []).length

/-- The number of self-loops of a node. -/
def selfLoops (i : Nat) : Nat := (t.incident r i).countP (·.node == i)

/-- The labels of the edges between two nodes, one for each edge. -/
def labelsBetween (a b : Nat) : List String :=
  ((t.incident r a).filter (·.node == b)).map (·.label)

/-- The constraints all of whose nodes are on the side, renumbered. -/
def constraints : List Constraint := r.constraints.filterMap (·.remap t.number?)

/-- A copy of the side. Every edge is added when it is met at its smaller endpoint. -/
def toGraph (s : Side) : Except Fault Graph :=
  let nodes := List.range t.members.length
  Graph.ofParts (nodes.map (t.label r s)) (nodes.flatMap fun i =>
    (t.incident r i).filterMap fun e => if i ≤ e.node then some ⟨i, e.node, e.label⟩ else none)

end SideTable

end GraphGrammar
