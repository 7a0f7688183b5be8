import GraphGrammar.SortedSet

/-!
# Labelled multigraphs as they are read

Searches, hashes and rewrites read a graph through one view: how many nodes and edges it has, the
label of each node, and for each node the list of edges around it. The graph is undirected, may
have parallel edges, and may have self-loops. An edge between two nodes is listed at both of them,
a self-loop once at its node.

The view carries the three laws that make such lists the edges of one graph
(`GraphGrammar.GraphView.mem_lt`, `count_comm` and `degree_sum`), so that nothing has to be
assumed of a graph that is read.

## Main definitions

* `GraphGrammar.Edge`, `GraphGrammar.Incidence` — an edge, and an edge as its endpoint sees it.
* `GraphGrammar.GraphView` — the view.
* `GraphGrammar.GraphView.degree`, `selfLoops`, `labelsBetween`, `hasEdge`, `neighbours`.
* `GraphGrammar.GraphView.edgeList` — every edge once, at its smaller endpoint.
-/

namespace GraphGrammar

/-- An edge of an undirected graph, with its endpoints in the order in which they were given. -/
structure Edge where
  /-- The endpoint given first. -/
  source : Nat
  /-- The endpoint given second. -/
  target : Nat
  /-- The label. -/
  label : String
deriving DecidableEq

/-- An edge as it is seen from one of its endpoints. -/
structure Incidence where
  /-- The opposite endpoint, which for a self-loop is the node itself. -/
  node : Nat
  /-- The label of the edge. -/
  label : String
deriving DecidableEq

namespace Edge

/-- The endpoint opposite to `v`. -/
def other (e : Edge) (v : Nat) : Nat := if e.source = v then e.target else e.source

/-- Whether both endpoints are the same node. -/
def isSelfLoop (e : Edge) : Bool := e.source == e.target

/-- Whether `v` is an endpoint. -/
def touches (e : Edge) (v : Nat) : Bool := e.source == v || e.target == v

/-- Whether the edge joins `a` and `b`, in either order. -/
def connects (e : Edge) (a b : Nat) : Bool :=
  (e.source == a && e.target == b) || (e.source == b && e.target == a)

/-- The edge as `v` sees it, if `v` is an endpoint. -/
def seenFrom (e : Edge) (v : Nat) : Option Incidence :=
  if e.touches v then some ⟨e.other v, e.label⟩ else none

/-- The edge with every node `v` replaced by `f v`. -/
def mapNodes (f : Nat → Nat) (e : Edge) : Edge := ⟨f e.source, f e.target, e.label⟩

end Edge

/-- The sum of `f 0`, `f 1`, …, `f (n - 1)`. -/
def sumBelow (n : Nat) (f : Nat → Nat) : Nat :=
  match n with
  | 0 => 0
  | n + 1 => sumBelow n f + f n

theorem sumBelow_add (n : Nat) (f h : Nat → Nat) :
    sumBelow n (fun v => f v + h v) = sumBelow n f + sumBelow n h := by
  induction n with
  | zero => rfl
  | succ n ih => simp only [sumBelow, ih]; omega

theorem sumBelow_zero (n : Nat) : sumBelow n (fun _ => 0) = 0 := by
  induction n with
  | zero => rfl
  | succ n ih => rw [sumBelow, ih]

theorem sumBelow_congr {n : Nat} {f h : Nat → Nat} (hfh : ∀ v, v < n → f v = h v) :
    sumBelow n f = sumBelow n h := by
  induction n with
  | zero => rfl
  | succ n ih =>
    rw [sumBelow, sumBelow, ih fun v hv => hfh v (by omega), hfh n (by omega)]

theorem sumBelow_ite_eq (n a : Nat) :
    sumBelow n (fun v => if a = v then 1 else 0) = if a < n then 1 else 0 := by
  induction n with
  | zero => rfl
  | succ n ih =>
    rw [sumBelow, ih]
    by_cases h1 : a < n <;> by_cases h2 : a = n <;> simp [h1, h2] <;> omega

theorem sumBelow_append (n m : Nat) (f : Nat → Nat) :
    sumBelow (n + m) f = sumBelow n f + sumBelow m (fun v => f (n + v)) := by
  induction m with
  | zero => rfl
  | succ m ih => rw [← Nat.add_assoc, sumBelow, ih, sumBelow, Nat.add_assoc]

/-- A labelled undirected multigraph as it is read. Nodes are the numbers below `nodeCount`. -/
structure GraphView where
  /-- The number of nodes. -/
  nodeCount : Nat
  /-- The number of edges, parallel edges and self-loops included. -/
  edgeCount : Nat
  /-- The label of each node. -/
  label : Nat → String
  /-- The edges around each node. -/
  incident : Nat → List Incidence
  /-- Whether the edges of a number that is no node are read as none. Otherwise such a read is
  refused. -/
  lenient : Bool
  /-- Only nodes have edges around them, and edges lead to nodes. -/
  mem_lt : ∀ {v : Nat} {e : Incidence}, e ∈ incident v → v < nodeCount ∧ e.node < nodeCount
  /-- Both endpoints of an edge see it. -/
  count_comm : ∀ (a b : Nat) (l : String),
    (incident a).count ⟨b, l⟩ = (incident b).count ⟨a, l⟩
  /-- Every edge has two ends, and a self-loop is listed once. -/
  degree_sum :
    sumBelow nodeCount (fun v => (incident v).length + (incident v).countP (·.node == v)) =
      2 * edgeCount

namespace GraphView

variable (g : GraphView)

/-- The number of edges listed at a node. -/
def degree (v : Nat) : Nat := (g.incident v).length

/-- The number of self-loops of a node. -/
def selfLoops (v : Nat) : Nat := (g.incident v).countP (·.node == v)

/-- The labels of the edges between two nodes, one for each edge. -/
def labelsBetween (a b : Nat) : List String :=
  ((g.incident a).filter (·.node == b)).map (·.label)

/-- Whether some edge joins two nodes. -/
def hasEdge (a b : Nat) : Bool := (g.incident a).any (·.node == b)

/-- The nodes that share an edge with a node; the node itself if it has a self-loop. -/
def neighbours (v : Nat) : SortedSet Nat := SortedSet.ofList ((g.incident v).map (·.node))

/-- Every edge once, listed at its smaller endpoint, nodes in ascending order. -/
def edgeList : List Edge :=
  (List.range g.nodeCount).flatMap fun v =>
    (g.incident v).filterMap fun e => if v ≤ e.node then some ⟨v, e.node, e.label⟩ else none

/-! ### Reads at numbers that may be no nodes -/

/-- The label of a node; refused for a number that is no node. -/
def label? (v : Nat) : Option String := if v < g.nodeCount then some (g.label v) else none

/-- The edges around a node; for a number that is no node they are refused or none. -/
def incident? (v : Nat) : Option (List Incidence) :=
  if v < g.nodeCount || g.lenient then some (g.incident v) else none

end GraphView

end GraphGrammar
