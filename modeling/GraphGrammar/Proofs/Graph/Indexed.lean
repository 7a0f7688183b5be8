import GraphGrammar.Codec.IndexedGraph
import GraphGrammar.Proofs.Calls
import GraphGrammar.Proofs.Codec.WrittenGraph
import GraphGrammar.Proofs.Graph.Bonds
import GraphGrammar.Proofs.Graph.EdgeIndex

/-!
# Stored graphs and graphs

The numbers that a stored graph holds for its nodes follow from its edges, as long as they are
entered whenever an edge is added. Calls on a graph that is stored with its numbers then do what the
operations on graphs do, and reads give what is read of the graph.

## Main definitions

* `GraphGrammar.IndexedGraph.ofLists`, `GraphGrammar.Graph.indexed` — a graph as it is stored.

## Main results

* `GraphGrammar.Graph.perform_addNode`, `perform_addEdge_of_ok`, `perform_addEdge_of_error`,
  `perform_setLabel_of_ok`, `perform_setLabel_of_error`, `perform_append` — the calls.
* `GraphGrammar.IndexedGraph.ofParts_eq`, `GraphGrammar.Graph.renumber_indexed`,
  `GraphGrammar.IndexedGraph.ofBytes_eq`, `GraphGrammar.IndexedGraph.ofJsonText_eq` — the graphs
  that are built anew.
* `GraphGrammar.Graph.incident_indexed` — the edges around a node.
-/

namespace GraphGrammar

/-! ### Calls one after the other -/

namespace GraphCall

variable {α β : Type} {call : GraphCall α} {g g' : IndexedGraph}

theorem perform_bind_of_ok {a : α} (h : call.perform g = (.ok a, g')) (next : α → GraphCall β) :
    (call >>= next).perform g = (next a).perform g' := run_bind_of_ok h next

/-- After a call that is refused nothing follows. -/
theorem perform_bind_of_error {fault : Fault} (h : call.perform g = (.error fault, g'))
    (next : α → GraphCall β) : (call >>= next).perform g = (.error fault, g') :=
  run_bind_of_error h next

theorem perform_discard_of_ok {a : α} (h : call.perform g = (.ok a, g')) :
    (discard call).perform g = (.ok (), g') :=
  perform_bind_of_ok h fun _ => pure ()

theorem perform_discard_of_error {fault : Fault} (h : call.perform g = (.error fault, g')) :
    (discard call).perform g = (.error fault, g') :=
  perform_bind_of_error h fun _ => pure ()

theorem graphAfter_of_error {fault : Fault} (h : call.perform g = (.error fault, g')) :
    call.graphAfter g = .error fault := by
  rw [graphAfter, h]

theorem graphAfter_bind_of_ok {a : α} (h : call.perform g = (.ok a, g'))
    (next : α → GraphCall β) : (call >>= next).graphAfter g = (next a).graphAfter g' := by
  rw [graphAfter, perform_bind_of_ok h]
  rfl

end GraphCall

namespace IndexedGraph

/-! ### Graphs with the numbers that follow from their edges -/

/-- The stored graph with given labels and edges. -/
def ofLists (labels : List String) (edges : List Edge) : IndexedGraph :=
  ⟨labels, edges, EdgeIndex.ofSlots labels.length (edges.map some)⟩

variable {labels : List String} {edges : List Edge}

/-- No edge touches a number that is no node. -/
theorem touching_eq_nil_of_le (h : ∀ e ∈ edges, e.source < labels.length ∧ e.target < labels.length)
    {v : Nat} (hv : labels.length ≤ v) : touching (edges.map some) v = [] := by
  refine List.eq_nil_iff_forall_not_mem.mpr fun k hk => ?_
  obtain ⟨e, he, htouches⟩ := mem_touching_map_some.mp hk
  have := h e (List.mem_of_getElem? he)
  simp only [Edge.touches, Bool.or_eq_true, beq_iff_eq] at htouches
  omega

theorem perform_checkNode (g : IndexedGraph) (v : Nat) : (checkNode v).perform g =
    (if v < g.labels.length then .ok () else .error (.unknownNode v g.labels.length), g) := by
  show GraphCall.perform (if v < g.labels.length then pure () else throw _) g = _
  split <;> rfl

theorem perform_checkNode_of_lt {g : IndexedGraph} {v : Nat} (hv : v < g.labels.length) :
    (checkNode v).perform g = (.ok (), g) := by
  rw [perform_checkNode, if_pos hv]

theorem perform_checkNode_of_not_lt {g : IndexedGraph} {v : Nat} (hv : ¬v < g.labels.length) :
    (checkNode v).perform g = (.error (.unknownNode v g.labels.length), g) := by
  rw [perform_checkNode, if_neg hv]

theorem perform_addNode_ofLists
    (h : ∀ e ∈ edges, e.source < labels.length ∧ e.target < labels.length) (label : String) :
    (addNode label).perform (ofLists labels edges) =
      (.ok labels.length, ofLists (labels ++ [label]) edges) := by
  rw [ofLists, ofLists, List.length_append, List.length_singleton,
    EdgeIndex.ofSlots_succ (touching_eq_nil_of_le h (Nat.le_refl _))]
  rfl

theorem perform_addNodes_ofLists
    (h : ∀ e ∈ edges, e.source < labels.length ∧ e.target < labels.length) (new : List String) :
    (addNodes new).perform (ofLists labels edges) = (.ok (), ofLists (labels ++ new) edges) := by
  induction new generalizing labels with
  | nil =>
    rw [List.append_nil]
    rfl
  | cons label new ih =>
    have hlonger : ∀ e ∈ edges, e.source < (labels ++ [label]).length ∧
        e.target < (labels ++ [label]).length := fun e he => by
      have := h e he
      rw [List.length_append, List.length_singleton]
      omega
    have hfirst := GraphCall.perform_discard_of_ok (perform_addNode_ofLists h label)
    rw [addNodes, List.forM_cons, GraphCall.perform_bind_of_ok hfirst, ← addNodes, ih hlonger,
      List.append_assoc, List.singleton_append]

theorem perform_pushEdge_ofLists (labels : List String) (edges : List Edge) (e : Edge) :
    (pushEdge e).perform (ofLists labels edges) =
      (.ok edges.length, ofLists labels (edges ++ [e])) := by
  have henter := EdgeIndex.enter_ofSlots labels.length (edges.map some) e
  rw [List.length_map] at henter
  rw [ofLists, ofLists, List.map_append, List.map_singleton, ← henter]
  rfl

theorem perform_addEdge_ofLists {e : Edge} (hs : e.source < labels.length)
    (ht : e.target < labels.length) : (addEdge e).perform (ofLists labels edges) =
      (.ok edges.length, ofLists labels (edges ++ [e])) := by
  have hsource := perform_checkNode_of_lt (g := ofLists labels edges) hs
  have htarget := perform_checkNode_of_lt (g := ofLists labels edges) ht
  rw [addEdge, GraphCall.perform_bind_of_ok hsource, GraphCall.perform_bind_of_ok htarget,
    perform_pushEdge_ofLists]

theorem perform_pushEdges_ofLists (labels : List String) (edges new : List Edge)
    (f : Edge → Edge) : GraphCall.perform (forM new fun e => discard (pushEdge (f e)))
      (ofLists labels edges) = (.ok (), ofLists labels (edges ++ new.map f)) := by
  induction new generalizing edges with
  | nil =>
    rw [List.map_nil, List.append_nil]
    rfl
  | cons e new ih =>
    have hfirst := GraphCall.perform_discard_of_ok (perform_pushEdge_ofLists labels edges (f e))
    rw [List.forM_cons, GraphCall.perform_bind_of_ok hfirst, ih, List.append_assoc,
      List.singleton_append, List.map_cons]

end IndexedGraph

/-! ### Graphs as they are stored -/

namespace Graph

variable {g h : Graph} {e : Edge} {v : Nat} {label : String} {fault : Fault}

/-- A graph as it is stored. -/
def indexed (g : Graph) : IndexedGraph := IndexedGraph.ofLists g.labels g.edges

@[simp]
theorem labels_indexed (g : Graph) : g.indexed.labels = g.labels := rfl

@[simp]
theorem edges_indexed (g : Graph) : g.indexed.edges = g.edges := rfl

theorem perform_addNode (g : Graph) (label : String) :
    (IndexedGraph.addNode label).perform g.indexed = (.ok g.nodeCount, (g.addNode label).indexed) :=
  IndexedGraph.perform_addNode_ofLists g.endpoints_lt label

theorem perform_addEdge_of_ok (hadd : g.addEdge e = .ok h) :
    (IndexedGraph.addEdge e).perform g.indexed = (.ok g.edges.length, h.indexed) := by
  obtain ⟨⟨hs, ht⟩, hlabels, hedges⟩ := addEdge_eq_ok_iff.mp hadd
  rw [indexed, indexed, hlabels, hedges]
  exact IndexedGraph.perform_addEdge_ofLists hs ht

/-- An edge that is refused is refused before anything is changed. -/
theorem perform_addEdge_of_error (hadd : g.addEdge e = .error fault) :
    (IndexedGraph.addEdge e).perform g.indexed = (.error fault, g.indexed) := by
  rw [addEdge] at hadd
  split at hadd
  · next hs =>
    have hsource : (IndexedGraph.checkNode e.source).perform g.indexed = (.ok (), g.indexed) :=
      IndexedGraph.perform_checkNode_of_lt hs
    split at hadd
    · cases hadd
    · next ht =>
      cases hadd
      rw [IndexedGraph.addEdge, GraphCall.perform_bind_of_ok hsource]
      exact GraphCall.perform_bind_of_error (IndexedGraph.perform_checkNode_of_not_lt ht) _
  · next hs =>
    cases hadd
    exact GraphCall.perform_bind_of_error (IndexedGraph.perform_checkNode_of_not_lt hs) _

theorem perform_setLabel_of_ok (hset : g.setLabel v label = .ok h) :
    (IndexedGraph.setLabel v label).perform g.indexed = (.ok (), h.indexed) := by
  rw [setLabel] at hset
  split at hset
  · next hv =>
    cases hset
    have hcheck : (IndexedGraph.checkNode v).perform g.indexed = (.ok (), g.indexed) :=
      IndexedGraph.perform_checkNode_of_lt hv
    rw [IndexedGraph.setLabel, GraphCall.perform_bind_of_ok hcheck, indexed, indexed,
      IndexedGraph.ofLists, IndexedGraph.ofLists, List.length_set]
    rfl
  · cases hset

theorem perform_setLabel_of_error (hset : g.setLabel v label = .error fault) :
    (IndexedGraph.setLabel v label).perform g.indexed = (.error fault, g.indexed) := by
  rw [setLabel] at hset
  split at hset
  · cases hset
  · next hv =>
    cases hset
    exact GraphCall.perform_bind_of_error (IndexedGraph.perform_checkNode_of_not_lt hv) _

theorem perform_append (g h : Graph) : (IndexedGraph.append h.indexed).perform g.indexed =
    (.ok g.nodeCount, (g.append h).indexed) := by
  have hnodes := IndexedGraph.perform_addNodes_ofLists g.endpoints_lt h.labels
  have hedges := IndexedGraph.perform_pushEdges_ofLists (g.labels ++ h.labels) g.edges h.edges
    (Edge.mapNodes (· + g.nodeCount))
  have hget : GraphCall.perform get g.indexed = (.ok g.indexed, g.indexed) := rfl
  rw [IndexedGraph.append, GraphCall.perform_bind_of_ok hget]
  refine (GraphCall.perform_bind_of_ok hnodes _).trans ?_
  exact (GraphCall.perform_bind_of_ok hedges _).trans rfl

/-- Edges that are added one by one, until one of them is refused. -/
theorem graphAfter_addEdges (g : Graph) (edges : List Edge) :
    GraphCall.graphAfter (forM edges fun e => discard (IndexedGraph.addEdge e)) g.indexed =
      (edges.foldlM addEdge g).map indexed := by
  induction edges generalizing g with
  | nil => rfl
  | cons e edges ih =>
    rw [List.forM_cons, List.foldlM_cons]
    cases hadd : g.addEdge e with
    | ok h =>
      have hfirst := GraphCall.perform_discard_of_ok (perform_addEdge_of_ok hadd)
      exact (GraphCall.graphAfter_bind_of_ok hfirst _).trans (ih h)
    | error fault =>
      have hfirst := GraphCall.perform_discard_of_error (perform_addEdge_of_error hadd)
      exact GraphCall.graphAfter_of_error (GraphCall.perform_bind_of_error hfirst _)

end Graph

/-! ### Graphs that are built anew -/

namespace IndexedGraph

theorem ofParts_eq (labels : List String) (edges : List Edge) :
    ofParts labels edges = (Graph.ofParts labels edges).map Graph.indexed := by
  have hnodes : (addNodes labels).perform empty = (.ok (), ofLists labels []) :=
    @perform_addNodes_ofLists [] [] nofun labels
  rw [ofParts, addParts, GraphCall.graphAfter_bind_of_ok hnodes]
  exact Graph.graphAfter_addEdges ⟨labels, [], by simp⟩ edges

theorem accept_eq (w : WrittenGraph) : accept w = w.accept.map Graph.indexed := by
  rw [accept, WrittenGraph.accept]
  split
  · exact ofParts_eq _ _
  · rfl

/-- **A graph that is read from bytes** is stored with its numbers. -/
theorem ofBytes_eq (input : List UInt8) :
    ofBytes input = (Graph.ofBytes input).map Graph.indexed := by
  rw [ofBytes, Graph.ofBytes]
  cases ByteReader.writtenGraph input with
  | none => rfl
  | some read => exact accept_eq read.1

/-- **A graph that is read from a text** is stored with its numbers. -/
theorem ofJsonText_eq (text : String) :
    ofJsonText text = (Graph.ofJsonText text).map Graph.indexed := by
  rw [ofJsonText, Graph.ofJsonText]
  cases Json.read? text with
  | none => rfl
  | some read =>
    simp only [Option.bind_eq_bind, Option.bind_some]
    cases WrittenGraph.ofJson? read.1 with
    | none => rfl
    | some w =>
      simp only [Option.bind_some, accept_eq]
      cases w.accept with
      | error cause => rfl
      | ok g => cases read.2 <;> rfl

end IndexedGraph

namespace Graph

variable (g : Graph) (v : Nat)

theorem renumber_indexed (perm : List Nat) :
    g.indexed.renumber perm = (g.renumber perm).map indexed := by
  rw [IndexedGraph.renumber, renumber, labels_indexed, edges_indexed]
  show (if isPermutation g.nodeCount perm then _ else _) = _
  split
  · exact IndexedGraph.ofParts_eq _ _
  · rfl

/-! ### Reads -/

/-- The numbers that are held for a node. -/
theorem row_indexed : g.indexed.row v = touching (g.edges.map some) v := by
  rw [IndexedGraph.row, indexed, IndexedGraph.ofLists]
  by_cases hv : v < g.labels.length
  · exact EdgeIndex.getD_ofSlots hv
  · rw [List.getD_eq_getElem?_getD, EdgeIndex.getElem?_ofSlots, if_neg hv,
      IndexedGraph.touching_eq_nil_of_le g.endpoints_lt (Nat.le_of_not_lt hv)]
    rfl

/-- **The edges around a node** are read from its numbers. -/
theorem incident_indexed : g.indexed.incident v = g.view.incident v := by
  have hseen := filterMap_touching (g.edges.map some) v
  rw [present_map_some] at hseen
  rw [IndexedGraph.incident, row_indexed, view_incident, ← hseen]
  refine List.filterMap_congr fun k hk => ?_
  obtain ⟨e, he, htouches⟩ := mem_touching_map_some.mp hk
  rw [edges_indexed, List.getElem?_map, he, Option.map_some, Option.map_some, Option.join_some,
    Option.bind_some, Edge.seenFrom, if_pos htouches]

theorem degree_indexed : g.indexed.degree v = g.view.degree v := by
  have hlength := length_touching (g.edges.map some) v
  rwa [present_map_some, ← row_indexed, ← view_incident] at hlength

theorem selfLoops_indexed : g.indexed.selfLoops v = g.view.selfLoops v := by
  rw [IndexedGraph.selfLoops, incident_indexed, GraphView.selfLoops]

theorem labelsBetween_indexed (a b : Nat) :
    g.indexed.labelsBetween a b = g.view.labelsBetween a b := by
  rw [IndexedGraph.labelsBetween, incident_indexed, GraphView.labelsBetween]

end Graph

end GraphGrammar
