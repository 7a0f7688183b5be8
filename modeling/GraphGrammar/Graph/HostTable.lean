import GraphGrammar.Counts
import GraphGrammar.Graph.Composite

/-!
# Several hosts by a table of offsets

Hosts are pushed one after the other, and for every host the number of its first node is noted.
These numbers do not decrease, but a host without nodes shares its number with the next host. The
host of a node is looked up by bisection: it is the last one that does not begin after the node.

Numbers of nodes and edges are added up as counts are, also when a node is read. So too many nodes
or edges are refused, or the numbers start again from zero.

## Main definitions

* `GraphGrammar.partitionPoint` — where a condition ceases to hold along a list.
* `GraphGrammar.HostTable`, `GraphGrammar.HostTable.push` — the hosts and where they begin.
* `GraphGrammar.HostTable.toLocal`, `GraphGrammar.HostTable.toGlobal` — the two numberings.
* `GraphGrammar.HostTable.label?`, `incident`, `degree`, `selfLoops` — reads.
-/

namespace GraphGrammar

/-! ### Bisection -/

/-- The place from which on a condition does not hold, if it lies among the `size` places after
`base`, or directly behind them. -/
def partitionFrom {α : Type} (condition : α → Bool) (l : List α) (base size : Nat) : Nat :=
  if size ≤ 1 then if (l[base]?).any condition then base + 1 else base
  else
    partitionFrom condition l
      (if (l[base + size / 2]?).any condition then base + size / 2 else base) (size - size / 2)
termination_by size
decreasing_by omega

/-- The place from which on a condition does not hold along a list, if it holds nowhere after a
place where it does not. -/
def partitionPoint {α : Type} (condition : α → Bool) (l : List α) : Nat :=
  partitionFrom condition l 0 l.length

/-! ### The table -/

/-- Several hosts, and where each of them begins. -/
structure HostTable where
  /-- The hosts in order. -/
  hosts : List GraphView
  /-- The number of the first node of every host. -/
  offsets : List Nat
  /-- The number of nodes of all hosts. -/
  nodeCount : Nat
  /-- The number of edges of all hosts. -/
  edgeCount : Nat
  /-- What becomes of sums of counts that are above the limit. -/
  overflow : Overflow

namespace HostTable

/-- No host. -/
def empty (overflow : Overflow) : HostTable := ⟨[], [], 0, 0, overflow⟩

/-- The table with one more host, which comes last, if no sum is refused. Also the number of the
host. -/
def push (c : HostTable) (g : GraphView) : Option (HostTable × Nat) := do
  let nodeCount ← c.overflow.add c.nodeCount g.nodeCount
  let edgeCount ← c.overflow.add c.edgeCount g.edgeCount
  return (⟨c.hosts ++ [g], c.offsets ++ [c.nodeCount], nodeCount, edgeCount, c.overflow⟩,
    c.hosts.length)

/-- The table with more hosts, pushed in turn. -/
def pushAll (c : HostTable) (hosts : List GraphView) : Option HostTable :=
  hosts.foldlM (fun c g => (c.push g).map (·.1)) c

/-- The table of given hosts. -/
def ofHosts (overflow : Overflow) (hosts : List GraphView) : Option HostTable :=
  (empty overflow).pushAll hosts

/-! ### Reads -/

variable (c : HostTable)

/-- The host of a node and the number of the node in it. -/
def toLocal (v : Nat) : Option (Nat × Nat) :=
  if c.nodeCount ≤ v then none
  else
    match partitionPoint (fun offset => decide (offset ≤ v)) c.offsets with
    | 0 => none
    | i + 1 => (c.offsets[i]?).map fun offset => (i, v - offset)

/-- The number of the node `v` of the host `i`. -/
def toGlobal (i v : Nat) : Option Nat := do
  let g ← c.hosts[i]?
  if v < g.nodeCount then (c.offsets[i]?).bind (c.overflow.add · v) else none

/-- The label of a node; refused for a number that is no node. -/
def label? (v : Nat) : Option String := do
  let (i, v) ← c.toLocal v
  let g ← c.hosts[i]?
  g.label? v

/-- The edges around a node, if no sum is refused; none for a number that is no node. -/
def incident (v : Nat) : Option (List Incidence) :=
  match c.toLocal v with
  | none => some []
  | some (i, v) => do
    let g ← c.hosts[i]?
    let offset ← c.offsets[i]?
    (g.incident v).mapM fun e => (c.overflow.add e.node offset).map (⟨·, e.label⟩)

/-- The number of edges listed at a node, as its host counts them. -/
def degree (v : Nat) : Nat :=
  match c.toLocal v with
  | none => 0
  | some (i, v) => ((c.hosts[i]?).map (·.degree v)).getD 0

/-- The number of self-loops of a node. -/
def selfLoops (v : Nat) : Option Nat := (c.incident v).map (·.countP (·.node == v))

end HostTable

end GraphGrammar
