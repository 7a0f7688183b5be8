import GraphGrammar.Graph.View
import GraphGrammar.Fault

/-!
# Graphs

A graph is the list of its node labels and the list of its edges, in the order in which they were
added. Nodes and edges are only ever added, and are numbered in that order. The edges around a
node follow from the edge list and are not stored.

## Main definitions

* `GraphGrammar.Graph` — labels and edges, all endpoints being nodes.
* `GraphGrammar.Graph.addNode`, `addEdge`, `setLabel`, `append`, `ofParts`.
* `GraphGrammar.Graph.view` — the graph as it is read.

## Main results

* `GraphGrammar.Graph.view_incident` — around a node lie the edges that touch it, in edge order.
-/

namespace GraphGrammar

/-- A labelled undirected multigraph, whose nodes and edges are numbered in the order in which
they were added. -/
structure Graph where
  /-- The labels of the nodes. -/
  labels : List String
  /-- The edges. -/
  edges : List Edge
  /-- The endpoints of the edges are nodes. -/
  endpoints_lt : ∀ e ∈ edges, e.source < labels.length ∧ e.target < labels.length
deriving DecidableEq

namespace Graph

/-! ### Building graphs -/

/-- The graph without nodes. -/
def empty : Graph := ⟨[], [], by simp⟩

instance : Inhabited Graph := ⟨empty⟩

/-- The number of nodes. -/
def nodeCount (g : Graph) : Nat := g.labels.length

/-- Whether there is no node. -/
def isEmpty (g : Graph) : Bool := g.labels.isEmpty

/-- Refuses a number that is no node. -/
def checkNode (g : Graph) (v : Nat) : Except Fault Unit :=
  if v < g.nodeCount then .ok () else .error (.unknownNode v g.nodeCount)

/-- The graph with a node added. Its number is the former number of nodes. -/
def addNode (g : Graph) (label : String) : Graph where
  labels := g.labels ++ [label]
  edges := g.edges
  endpoints_lt e he := by
    have := g.endpoints_lt e he
    simp only [List.length_append, List.length_singleton]
    omega

/-- The graph with an edge between two nodes added. Its number is the former number of edges. -/
def addEdge (g : Graph) (e : Edge) : Except Fault Graph :=
  if hs : e.source < g.labels.length then
    if ht : e.target < g.labels.length then
      .ok ⟨g.labels, g.edges ++ [e], fun e' he' => by
        rcases List.mem_append.mp he' with he' | he'
        · exact g.endpoints_lt e' he'
        · rw [List.mem_singleton.mp he']
          exact ⟨hs, ht⟩⟩
    else .error (.unknownNode e.target g.nodeCount)
  else .error (.unknownNode e.source g.nodeCount)

/-- The graph with the label of a node replaced. -/
def setLabel (g : Graph) (v : Nat) (label : String) : Except Fault Graph :=
  if v < g.nodeCount then
    .ok ⟨g.labels.set v label, g.edges, by simpa using g.endpoints_lt⟩
  else .error (.unknownNode v g.nodeCount)

/-- The disjoint union of two graphs, the nodes of the second numbered after those of the
first. -/
def append (g h : Graph) : Graph where
  labels := g.labels ++ h.labels
  edges := g.edges ++ h.edges.map (Edge.mapNodes (· + g.nodeCount))
  endpoints_lt e he := by
    rw [List.length_append]
    rcases List.mem_append.mp he with he | he
    · have := g.endpoints_lt e he
      omega
    · obtain ⟨e', he', rfl⟩ := List.mem_map.mp he
      have := h.endpoints_lt e' he'
      simp only [Edge.mapNodes, nodeCount]
      omega

/-- The graph with the given labels and edges; the first edge with an endpoint that is no node is
reported. -/
def ofParts (labels : List String) (edges : List Edge) : Except Fault Graph :=
  edges.foldlM addEdge ⟨labels, [], by simp⟩

/-! ### The graph as it is read -/

/-- The numbers of the edges that touch a node, in ascending order. -/
def incidentIds (g : Graph) (v : Nat) : List Nat :=
  (List.range g.edges.length).filter fun i => (g.edges[i]?).any (·.touches v)

theorem seenFrom_eq_none_of_le {g : Graph} {v : Nat} (hv : g.labels.length ≤ v) {e : Edge}
    (he : e ∈ g.edges) : e.seenFrom v = none := by
  have := g.endpoints_lt e he
  have hne : e.touches v = false := by
    simp only [Edge.touches, Bool.or_eq_false_iff, beq_eq_false_iff_ne]
    omega
  rw [Edge.seenFrom, hne, if_neg Bool.false_ne_true]

theorem node_lt_of_seenFrom {g : Graph} {v : Nat} {e : Edge} (he : e ∈ g.edges) {i : Incidence}
    (hi : e.seenFrom v = some i) : v < g.labels.length ∧ i.node < g.labels.length := by
  have := g.endpoints_lt e he
  simp only [Edge.seenFrom, Edge.touches, Edge.other] at hi
  by_cases hs : e.source = v
  · simp only [hs, beq_self_eq_true, Bool.true_or, if_true, Option.some.injEq] at hi
    rw [← hi]
    dsimp only
    omega
  · by_cases ht : e.target = v
    · simp only [hs, ht, beq_self_eq_true, Bool.or_true, if_true, if_false,
        Option.some.injEq] at hi
      rw [← hi]
      dsimp only
      omega
    · simp [hs, ht] at hi

theorem seenFrom_eq_some_iff {e : Edge} {a b : Nat} {l : String} :
    e.seenFrom a = some ⟨b, l⟩ ↔ e.connects a b = true ∧ e.label = l := by
  simp only [Edge.seenFrom, Edge.touches, Edge.other, Edge.connects]
  by_cases hs : e.source = a <;> by_cases ht : e.target = a <;> by_cases hs' : e.source = b <;>
    by_cases ht' : e.target = b <;> simp [hs, ht, hs', ht'] <;> omega

theorem connects_comm (e : Edge) (a b : Nat) : e.connects a b = e.connects b a := by
  rw [Edge.connects, Edge.connects, Bool.or_comm]

/-- The edges that join two nodes under a label are counted the same from both. -/
theorem count_seenFrom_comm (edges : List Edge) (a b : Nat) (l : String) :
    (edges.filterMap (·.seenFrom a)).count ⟨b, l⟩ =
      (edges.filterMap (·.seenFrom b)).count ⟨a, l⟩ := by
  induction edges with
  | nil => rfl
  | cons e edges ih =>
    have key : e.seenFrom a = some ⟨b, l⟩ ↔ e.seenFrom b = some ⟨a, l⟩ := by
      rw [seenFrom_eq_some_iff, seenFrom_eq_some_iff, connects_comm]
    simp only [List.filterMap_cons]
    cases ha : e.seenFrom a <;> cases hb : e.seenFrom b <;>
      simp only [List.count_cons, ih, beq_iff_eq] <;> simp only [ha, hb, reduceCtorEq,
        false_iff, iff_false, Option.some.injEq] at key
    · simp [key]
    · simp [key]
    · simp [key]

/-- An edge contributes two to the degrees and self-loops of all nodes together. -/
theorem sumBelow_seenFrom {n : Nat} {e : Edge} (hs : e.source < n) (ht : e.target < n) :
    sumBelow n (fun v => (if e.source = v then 1 else 0) + (if e.target = v then 1 else 0)) =
      2 := by
  rw [sumBelow_add, sumBelow_ite_eq, sumBelow_ite_eq, if_pos hs, if_pos ht]

theorem degree_sum_edges (n : Nat) (edges : List Edge)
    (h : ∀ e ∈ edges, e.source < n ∧ e.target < n) :
    sumBelow n (fun v => (edges.filterMap (·.seenFrom v)).length +
      (edges.filterMap (·.seenFrom v)).countP (·.node == v)) = 2 * edges.length := by
  induction edges with
  | nil =>
    exact sumBelow_zero n
  | cons e edges ih =>
    obtain ⟨hs, ht⟩ := h e (List.mem_cons_self ..)
    have step : ∀ v, ((e :: edges).filterMap (·.seenFrom v)).length +
        ((e :: edges).filterMap (·.seenFrom v)).countP (·.node == v) =
        ((if e.source = v then 1 else 0) + (if e.target = v then 1 else 0)) +
        ((edges.filterMap (·.seenFrom v)).length +
          (edges.filterMap (·.seenFrom v)).countP (·.node == v)) := by
      intro v
      simp only [List.filterMap_cons, Edge.seenFrom, Edge.touches, Edge.other]
      by_cases h1 : e.source = v <;> by_cases h2 : e.target = v <;> simp [h1, h2] <;> omega
    rw [sumBelow_congr fun v _ => step v, sumBelow_add, sumBelow_seenFrom hs ht,
      ih fun e' he' => h e' (List.mem_cons_of_mem _ he'), List.length_cons]
    omega

/-- The table of the edges around every node. -/
def rows (g : Graph) : Array (List Incidence) :=
  (Array.range g.labels.length).map fun v => g.edges.filterMap (·.seenFrom v)

theorem getD_rows (g : Graph) (v : Nat) : g.rows.getD v [] = g.edges.filterMap (·.seenFrom v) := by
  by_cases hv : v < g.labels.length
  · simp [rows, Array.getD, hv]
  · have : g.edges.filterMap (·.seenFrom v) = [] :=
      List.filterMap_eq_nil_iff.mpr fun e he => seenFrom_eq_none_of_le (Nat.le_of_not_lt hv) he
    simp [rows, Array.getD, hv, this]

/-- The graph as it is read. Reads at numbers that are no nodes are refused. -/
def view (g : Graph) : GraphView :=
  let table := g.rows
  let labels := g.labels.toArray
  { nodeCount := g.labels.length
    edgeCount := g.edges.length
    label := fun v => labels.getD v ""
    incident := fun v => table.getD v []
    lenient := false
    mem_lt := by
      intro v i hi
      rw [getD_rows] at hi
      obtain ⟨e, he, hei⟩ := List.mem_filterMap.mp hi
      exact node_lt_of_seenFrom he hei
    count_comm := by
      intro a b l
      rw [getD_rows, getD_rows]
      exact count_seenFrom_comm g.edges a b l
    degree_sum := by
      simp only [table, getD_rows]
      exact degree_sum_edges _ _ g.endpoints_lt }

@[simp]
theorem view_nodeCount (g : Graph) : g.view.nodeCount = g.labels.length := rfl

@[simp]
theorem view_edgeCount (g : Graph) : g.view.edgeCount = g.edges.length := rfl

/-- Around a node lie the edges that touch it, in edge order. -/
@[simp]
theorem view_incident (g : Graph) (v : Nat) :
    g.view.incident v = g.edges.filterMap (·.seenFrom v) := getD_rows g v

end Graph

/-- The graph with the labels and the edges of a view, every edge at its smaller endpoint. -/
def GraphView.toGraph (g : GraphView) : Graph where
  labels := (List.range g.nodeCount).map g.label
  edges := g.edgeList
  endpoints_lt e he := by
    simp only [edgeList, List.mem_flatMap, List.mem_range, List.mem_filterMap] at he
    obtain ⟨v, hv, i, hi, hie⟩ := he
    split at hie
    · rw [← Option.some.inj hie]
      simpa using ⟨hv, (g.mem_lt hi).2⟩
    · cases hie

end GraphGrammar
