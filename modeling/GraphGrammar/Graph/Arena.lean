import GraphGrammar.Graph.Basic

/-!
# Arenas

An arena is a graph under change. Its nodes and edges sit in numbered slots; removing one leaves its
slot empty for good, so that the numbers of all others stay as they are. Every node knows the edges
that touch it. A node can only be removed when no edge touches it. In the end the arena is compacted
into a graph, in which the remaining nodes are numbered anew.

## Main definitions

* `GraphGrammar.Arena` and its operations `addNode`, `addEdge`, `setLabel`, `removeEdge`,
  `removeNode`, `extend`.
* `GraphGrammar.Arena.compact` — the graph of what remains.
-/

namespace GraphGrammar

/-- A node of an arena. -/
structure ArenaNode where
  /-- The label. -/
  label : String
  /-- The slots of the edges that touch the node, in ascending order. -/
  incident : List Nat
deriving DecidableEq

/-- A graph under change. -/
structure Arena where
  /-- The slots of nodes. -/
  nodes : List (Option ArenaNode)
  /-- The slots of edges. -/
  edges : List (Option Edge)
deriving DecidableEq

/-- Numbers the flags that are set, from `start` on. -/
def numberKept (start : Nat) : List Bool → List (Option Nat)
  | [] => []
  | true :: flags => some start :: numberKept (start + 1) flags
  | false :: flags => none :: numberKept start flags

theorem numberKept_lt {start i k : Nat} {flags : List Bool}
    (h : (numberKept start flags)[i]? = some (some k)) : k < start + flags.count true := by
  induction flags generalizing start i with
  | nil => simp [numberKept] at h
  | cons flag flags ih =>
    cases flag <;> cases i <;>
      simp only [numberKept, List.getElem?_cons_zero, List.getElem?_cons_succ, Option.some.injEq,
        reduceCtorEq] at h
    · simpa using ih h
    · rw [← h]
      simp
    · have := ih h
      simp only [List.count_cons, beq_self_eq_true, if_true]
      omega

namespace Arena

/-- The arena without slots. -/
def empty : Arena := ⟨[], []⟩

/-! ### Reading -/

/-- The node in a slot. -/
def node (a : Arena) (v : Nat) : Except Fault ArenaNode :=
  match (a.nodes[v]?).join with
  | some n => .ok n
  | none => .error (.deadNode v)

/-- The edge in a slot. -/
def edge (a : Arena) (i : Nat) : Except Fault Edge :=
  match (a.edges[i]?).join with
  | some e => .ok e
  | none => .error (.deadEdge i)

/-- Whether a slot holds a node. -/
def holdsNode (a : Arena) (v : Nat) : Bool := (a.nodes[v]?).join.isSome

/-- The number of nodes. -/
def aliveNodes (a : Arena) : Nat := a.nodes.countP Option.isSome

/-- The number of edges. -/
def aliveEdges (a : Arena) : Nat := a.edges.countP Option.isSome

/-- Whether the slot of an edge holds one that satisfies a condition. -/
def edgeSatisfies (a : Arena) (condition : Edge → Bool) (i : Nat) : Bool :=
  (a.edges[i]?).join.any condition

/-- The label of a node. -/
def label (a : Arena) (v : Nat) : Except Fault String := return (← a.node v).label

/-- The slots of the edges that touch a node. -/
def incident (a : Arena) (v : Nat) : Except Fault (List Nat) := return (← a.node v).incident

/-- The slots of the self-loops of a node. -/
def selfLoops (a : Arena) (v : Nat) : Except Fault (List Nat) :=
  return (← a.node v).incident.filter (a.edgeSatisfies Edge.isSelfLoop)

/-- The slots of the edges between two nodes. -/
def slotsBetween (a : Arena) (v w : Nat) : Except Fault (List Nat) := do
  let _ ← a.node w
  return (← a.node v).incident.filter (a.edgeSatisfies fun e => e.connects v w)

/-- The slot of the first edge between two nodes with a given label. -/
def slotBetween (a : Arena) (v w : Nat) (label : String) : Except Fault (Option Nat) :=
  return (← a.slotsBetween v w).find? (a.edgeSatisfies fun e => e.label == label)

/-! ### Changing -/

/-- The arena with a node added, in the next slot. -/
def addNode (a : Arena) (label : String) : Arena :=
  { a with nodes := a.nodes ++ [some ⟨label, []⟩] }

/-- The slots with the node in slot `v` changed. -/
def modifyNode (nodes : List (Option ArenaNode)) (v : Nat) (f : ArenaNode → ArenaNode) :
    List (Option ArenaNode) :=
  nodes.modify v (Option.map f)

/-- The node with an edge added to those that touch it. -/
def attach (i : Nat) (n : ArenaNode) : ArenaNode := { n with incident := n.incident ++ [i] }

/-- The node with an edge taken from those that touch it. -/
def detach (i : Nat) (n : ArenaNode) : ArenaNode := { n with incident := n.incident.erase i }

/-- Changes the endpoints of an edge, a single one once. -/
def modifyEnds (nodes : List (Option ArenaNode)) (e : Edge) (f : ArenaNode → ArenaNode) :
    List (Option ArenaNode) :=
  let nodes := modifyNode nodes e.source f
  if e.source = e.target then nodes else modifyNode nodes e.target f

/-- The arena with an edge between two of its nodes added, in the next slot. -/
def appendEdge (a : Arena) (e : Edge) : Arena :=
  ⟨modifyEnds a.nodes e (attach a.edges.length), a.edges ++ [some e]⟩

/-- The arena with an edge added, in the next slot. Both endpoints must be nodes. -/
def addEdge (a : Arena) (e : Edge) : Except Fault Arena := do
  let _ ← a.node e.source
  let _ ← a.node e.target
  return a.appendEdge e

/-- The arena with the label of a node replaced. -/
def setLabel (a : Arena) (v : Nat) (label : String) : Except Fault Arena := do
  let _ ← a.node v
  return { a with nodes := modifyNode a.nodes v fun n => { n with label } }

/-- The arena without the edge in a slot. -/
def removeEdge (a : Arena) (i : Nat) : Except Fault Arena := do
  let e ← a.edge i
  return ⟨modifyEnds a.nodes e (detach i), a.edges.set i none⟩

/-- The arena without the node in a slot, which no edge may touch. -/
def removeNode (a : Arena) (v : Nat) : Except Fault Arena := do
  let n ← a.node v
  if n.incident.isEmpty then return { a with nodes := a.nodes.set v none }
  else throw (.nodeNotIsolated v n.incident.length)

/-- The arena with a copy of a part of a graph: the nodes whose flag is set, and the edges between
them. Also the slot of each node of the graph that was copied. -/
def extend (a : Arena) (t : GraphView) (keep : List Bool) : Arena × List (Option Nat) :=
  let flags := (List.range t.nodeCount).map fun v => keep.getD v false
  let slots := numberKept a.nodes.length flags
  let labels := ((List.range t.nodeCount).filter fun v => keep.getD v false).map t.label
  let a := labels.foldl addNode a
  let a := t.edgeList.foldl
    (fun a e =>
      match slots.getD e.source none, slots.getD e.target none with
      | some v, some w => a.appendEdge ⟨v, w, e.label⟩
      | _, _ => a)
    a
  (a, slots)

/-- A copy of a graph, with the same node numbers. -/
def ofGraph (t : GraphView) : Arena :=
  (empty.extend t (List.replicate t.nodeCount true)).1

/-! ### Compaction -/

/-- The numbers of the nodes after compaction, for each slot. -/
def remap (a : Arena) : List (Option Nat) := numberKept 0 (a.nodes.map Option.isSome)

/-- An edge with its endpoints renumbered, if both still are nodes. -/
def remapEdge (a : Arena) (e : Edge) : Option Edge := do
  some ⟨← (a.remap[e.source]?).join, ← (a.remap[e.target]?).join, e.label⟩

theorem remap_lt {a : Arena} {v k : Nat} (h : (a.remap[v]?).join = some k) :
    k < ((a.nodes.filterMap id).map (·.label)).length := by
  have hk := numberKept_lt (Option.join_eq_some_iff.mp h)
  have hcount : ∀ nodes : List (Option ArenaNode),
      (nodes.map Option.isSome).count true = (nodes.filterMap id).length := by
    intro nodes
    induction nodes with
    | nil => rfl
    | cons n nodes ih => cases n <;> simp_all
  rw [hcount] at hk
  simpa using hk

/-- The graph of the nodes and edges that remain, nodes in the order of their slots and renumbered,
edges in the order of theirs. -/
def compact (a : Arena) : Graph where
  labels := (a.nodes.filterMap id).map (·.label)
  edges := (a.edges.filterMap id).filterMap a.remapEdge
  endpoints_lt e he := by
    obtain ⟨e', -, h⟩ := List.mem_filterMap.mp he
    simp only [remapEdge, Option.bind_eq_bind, Option.bind_eq_some_iff, Option.some.injEq] at h
    obtain ⟨v, hv, w, hw, rfl⟩ := h
    exact ⟨remap_lt hv, remap_lt hw⟩

end Arena

end GraphGrammar
