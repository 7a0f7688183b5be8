import GraphGrammar.Proofs.Graph.Indexed

/-!
# Stored graphs that are reached by calls

Stored graphs begin empty, or are built from labels and edges, read, or renumbered, and are then
changed any number of times. Of every graph that is reached in this way, the three lists are in
step: every node holds the numbers of exactly the edges that touch it. A change that is refused
leaves the graph as it was.

## Main definitions

* `GraphGrammar.IndexedGraph.Change` — the changes of a stored graph.
* `GraphGrammar.IndexedGraph.Reached` — the stored graphs to which calls lead.
* `GraphGrammar.IndexedGraph.IsSound` — the three lists are in step.

## Main results

* `GraphGrammar.IndexedGraph.Reached.exists_indexed` — reached graphs are stored graphs.
* `GraphGrammar.IndexedGraph.Reached.sound_of_changes` — what holds of every graph that is reached.
-/

namespace GraphGrammar

namespace IndexedGraph

/-! ### Changes -/

/-- A change of a stored graph. -/
inductive Change where
  /-- A node is added. -/
  | addNode (label : String)
  /-- An edge is added. -/
  | addEdge (e : Edge)
  /-- The label of a node is replaced. -/
  | setLabel (v : Nat) (label : String)
  /-- A copy of a stored graph is added. -/
  | append (other : IndexedGraph)

/-- A change as a call whose answer is left aside. -/
def Change.call : Change → GraphCall Unit
  | addNode label => discard (IndexedGraph.addNode label)
  | addEdge e => discard (IndexedGraph.addEdge e)
  | setLabel v label => IndexedGraph.setLabel v label
  | append other => discard (IndexedGraph.append other)

/-- The graph after a change, which may be refused. -/
def after (g : IndexedGraph) (change : Change) : IndexedGraph := (change.call.perform g).2

/-- Whether a change only refers to nodes that there are. -/
def Admits (g : IndexedGraph) : Change → Prop
  | .addEdge e => e.source < g.labels.length ∧ e.target < g.labels.length
  | .setLabel v _ => v < g.labels.length
  | .addNode _ | .append _ => True

/-- The stored graphs that are reached. -/
inductive Reached : IndexedGraph → Prop
  /-- The graph without nodes. -/
  | nothing : Reached empty
  /-- A graph that is built from labels and edges. -/
  | parts {labels : List String} {edges : List Edge} {g : IndexedGraph}
    (h : ofParts labels edges = .ok g) : Reached g
  /-- A graph that is read from bytes. -/
  | bytes {input : List UInt8} {g : IndexedGraph} (h : ofBytes input = .ok g) : Reached g
  /-- A graph that is read from a text. -/
  | text {text : String} {g : IndexedGraph} (h : ofJsonText text = .ok g) : Reached g
  /-- A graph that is renumbered. -/
  | renumbered {g g' : IndexedGraph} {perm : List Nat} (h : Reached g)
    (h' : g.renumber perm = .ok g') : Reached g'
  /-- A graph after a change, refused or not; what is copied is reached itself. -/
  | changed {g : IndexedGraph} (h : Reached g) (change : Change)
    (hcopied : ∀ other, change = .append other → Reached other) : Reached (g.after change)

/-- The three lists are in step: edges join nodes, and every node holds the numbers of exactly the
edges that touch it, in ascending order. Then also the sums are right. -/
structure IsSound (g : IndexedGraph) : Prop where
  /-- Every node has a list of numbers. -/
  length_index : g.index.length = g.labels.length
  /-- Edges join nodes. -/
  endpoints_lt : ∀ e ∈ g.edges, e.source < g.labels.length ∧ e.target < g.labels.length
  /-- Nodes hold the numbers of the edges that touch them, each once and in ascending order. -/
  holds : ∀ v < g.labels.length, ∃ ids, (incidentIds v).perform g = (.ok ids, g) ∧
    ids.Pairwise (· < ·) ∧ ∀ k, k ∈ ids ↔ ∃ e, g.edges[k]? = some e ∧ e.touches v = true
  /-- The degree is the number of edges that are seen. -/
  degree_eq : ∀ v, g.degree v = (g.incident v).length
  /-- Every self-loop is counted at its one node. -/
  selfLoops_sum : sumBelow g.labels.length g.selfLoops = g.edges.countP Edge.isSelfLoop
  /-- Every edge that is no self-loop is counted twice. -/
  degree_sum : sumBelow g.labels.length g.degree + g.edges.countP Edge.isSelfLoop =
    2 * g.edges.length
  /-- The edges between two nodes are the same from both. -/
  labelsBetween_comm : ∀ a b, (g.labelsBetween a b).Perm (g.labelsBetween b a)

variable {g g' : IndexedGraph}

/-- **Stored graphs are sound.** -/
theorem isSound_indexed (g : Graph) : g.indexed.IsSound where
  length_index := EdgeIndex.length_ofSlots _ _
  endpoints_lt := g.endpoints_lt
  holds v hv := by
    have hcheck : (checkNode v).perform g.indexed = (.ok (), g.indexed) :=
      perform_checkNode_of_lt hv
    refine ⟨touching (g.edges.map some) v, ?_, List.pairwise_lt_range.filter _,
      fun k => mem_touching_map_some⟩
    rw [incidentIds, GraphCall.perform_bind_of_ok hcheck, ← g.row_indexed]
    rfl
  degree_eq v := by rw [g.degree_indexed, g.incident_indexed, GraphView.degree]
  selfLoops_sum :=
    (sumBelow_congr fun v _ => g.selfLoops_indexed v).trans g.sumBelow_selfLoops
  degree_sum := by
    have hsum := g.view.degree_sum
    rw [sumBelow_add] at hsum
    refine Eq.trans (congrArg₂ _ (sumBelow_congr fun v _ => g.degree_indexed v) ?_) hsum
    exact g.sumBelow_selfLoops.symm
  labelsBetween_comm a b := by
    rw [g.labelsBetween_indexed, g.labelsBetween_indexed]
    exact g.view.labelsBetween_perm_swap a b

/-! ### One change -/

/-- A change that refers to nodes only is made. -/
theorem exists_perform_of_admits {g : Graph} {change : Change} (h : g.indexed.Admits change)
    (hcopied : ∀ other, change = .append other → ∃ k : Graph, other = k.indexed) :
    ∃ g' : Graph, change.call.perform g.indexed = (.ok (), g'.indexed) := by
  cases change with
  | addNode label => exact ⟨_, GraphCall.perform_discard_of_ok (g.perform_addNode label)⟩
  | addEdge e =>
    cases hadd : g.addEdge e with
    | ok g' => exact ⟨g', GraphCall.perform_discard_of_ok (Graph.perform_addEdge_of_ok hadd)⟩
    | error fault => exact absurd h (Graph.addEdge_eq_error hadd).1
  | setLabel v label => exact ⟨_, Graph.perform_setLabel_of_ok (if_pos h)⟩
  | append other =>
    obtain ⟨k, rfl⟩ := hcopied other rfl
    exact ⟨_, GraphCall.perform_discard_of_ok (g.perform_append k)⟩

/-- A change that refers to something else is refused, and changes nothing. -/
theorem exists_perform_of_not_admits {g : Graph} {change : Change} (h : ¬g.indexed.Admits change) :
    ∃ fault, change.call.perform g.indexed = (.error fault, g.indexed) := by
  cases change with
  | addNode label => exact absurd trivial h
  | addEdge e =>
    cases hadd : g.addEdge e with
    | ok g' => exact absurd (Graph.addEdge_eq_ok_iff.mp hadd).1 h
    | error fault =>
      exact ⟨fault, GraphCall.perform_discard_of_error (Graph.perform_addEdge_of_error hadd)⟩
  | setLabel v label => exact ⟨_, Graph.perform_setLabel_of_error (if_neg h)⟩
  | append other => exact absurd trivial h

/-! ### Reached graphs -/

theorem exists_of_map_eq_ok {result : Except Fault Graph} (h : result.map Graph.indexed = .ok g) :
    ∃ k : Graph, g = k.indexed := by
  cases result with
  | ok k => exact ⟨k, (Except.ok.inj h).symm⟩
  | error fault => cases h

/-- **Reached graphs** are graphs that are stored with the numbers that follow from their edges. -/
theorem Reached.exists_indexed (h : g.Reached) : ∃ k : Graph, g = k.indexed := by
  induction h with
  | nothing => exact ⟨Graph.empty, rfl⟩
  | parts h => exact exists_of_map_eq_ok ((ofParts_eq _ _).symm.trans h)
  | bytes h => exact exists_of_map_eq_ok ((ofBytes_eq _).symm.trans h)
  | text h => exact exists_of_map_eq_ok ((ofJsonText_eq _).symm.trans h)
  | renumbered _ h ih =>
    obtain ⟨k, rfl⟩ := ih
    exact exists_of_map_eq_ok ((k.renumber_indexed _).symm.trans h)
  | @changed g _ change _ ih ihcopied =>
    obtain ⟨k, rfl⟩ := ih
    by_cases hadmits : k.indexed.Admits change
    · obtain ⟨k', hk'⟩ := exists_perform_of_admits hadmits ihcopied
      exact ⟨k', by rw [after, hk']⟩
    · obtain ⟨fault, hfault⟩ := exists_perform_of_not_admits hadmits
      exact ⟨k, by rw [after, hfault]⟩

/-- Any number of changes leads to graphs that are reached. -/
theorem Reached.afterAll (h : g.Reached) (changes : List Change)
    (hcopied : ∀ other, .append other ∈ changes → other.Reached) :
    (changes.foldl after g).Reached := by
  induction changes generalizing g with
  | nil => exact h
  | cons change changes ih =>
    refine ih (h.changed change fun other heq => hcopied other (heq ▸ List.mem_cons_self ..))
      fun other hmem => hcopied other (List.mem_cons_of_mem _ hmem)

/-- Stored graphs are the same if their labels and their edges are. -/
theorem indexed_eq_iff {g h : Graph} :
    g.indexed = h.indexed ↔ g.labels = h.labels ∧ g.edges = h.edges := by
  constructor
  · exact fun heq => ⟨congrArg labels heq, congrArg edges heq⟩
  · rintro ⟨hlabels, hedges⟩
    rw [Graph.indexed, Graph.indexed, hlabels, hedges]

/-- **What holds of every stored graph that is reached.** Its three lists are in step. A change that
refers to its nodes only is made, and any other change is refused and leaves it as it is. Two such
graphs are equal exactly if their labels and their edges are. Whatever is read of the graph is what
is read of a graph with these labels and these edges. -/
theorem Reached.sound_of_changes (h : g.Reached) :
    g.IsSound ∧
      (∀ change : Change, (∀ other, change = .append other → other.Reached) →
        (g.Admits change → change.call.perform g = (.ok (), g.after change)) ∧
        (¬g.Admits change → ∃ fault, change.call.perform g = (.error fault, g))) ∧
      (∀ g' : IndexedGraph, g'.Reached → (g = g' ↔ g.labels = g'.labels ∧ g.edges = g'.edges)) ∧
      ∃ k : Graph, k.labels = g.labels ∧ k.edges = g.edges ∧ ∀ v,
        g.incident v = k.view.incident v ∧ g.degree v = k.view.degree v ∧
        g.selfLoops v = k.view.selfLoops v ∧
        ∀ w, g.labelsBetween v w = k.view.labelsBetween v w := by
  obtain ⟨k, rfl⟩ := h.exists_indexed
  refine ⟨isSound_indexed k, fun change hcopied => ⟨fun hadmits => ?_,
    exists_perform_of_not_admits⟩, fun g' hg' => ?_, k, rfl, rfl, fun v =>
    ⟨k.incident_indexed v, k.degree_indexed v, k.selfLoops_indexed v, k.labelsBetween_indexed v⟩⟩
  · obtain ⟨k', hk'⟩ := exists_perform_of_admits hadmits fun other heq =>
      (hcopied other heq).exists_indexed
    rw [after, hk']
  · obtain ⟨k', rfl⟩ := hg'.exists_indexed
    exact indexed_eq_iff

/-- Changes that lead to two nodes with an edge between them and a self-loop. An edge that leads to
no node and a label for no node are refused. -/
def pairing : List Change :=
  [.addNode "a", .addEdge ⟨0, 1, "-"⟩, .addNode "b", .addEdge ⟨1, 1, "="⟩, .setLabel 2 "c",
    .addEdge ⟨0, 1, "-"⟩, .setLabel 0 "c"]

/-- The two nodes with a copy of themselves, renumbered backwards. -/
theorem Reached.sound_of_changes_pairing :
    (pairing.foldl after empty).Reached ∧
    ∃ g : IndexedGraph, ((pairing.foldl after empty).after
        (.append (pairing.foldl after empty))).renumber [3, 2, 1, 0] = .ok g ∧ g.Reached ∧
      g = ⟨["b", "c", "b", "c"], [⟨2, 2, "="⟩, ⟨3, 2, "-"⟩, ⟨0, 0, "="⟩, ⟨1, 0, "-"⟩],
        [[2, 3], [3], [0, 1], [1]]⟩ ∧
      ¬g.Admits (.addEdge ⟨0, 4, "-"⟩) ∧
      g.IsSound ∧ (∃ fault, (Change.addEdge ⟨0, 4, "-"⟩).call.perform g = (.error fault, g)) ∧
      (Change.append g).call.perform g = (.ok (), g.after (.append g)) := by
  have hpair : (pairing.foldl after empty).Reached :=
    Reached.nothing.afterAll pairing (by simp [pairing])
  have htwice := hpair.changed (.append (pairing.foldl after empty))
    fun other heq => Change.append.inj heq ▸ hpair
  have hrenumber : ((pairing.foldl after empty).after
      (.append (pairing.foldl after empty))).renumber [3, 2, 1, 0] = .ok ⟨["b", "c", "b", "c"],
        [⟨2, 2, "="⟩, ⟨3, 2, "-"⟩, ⟨0, 0, "="⟩, ⟨1, 0, "-"⟩], [[2, 3], [3], [0, 1], [1]]⟩ := by
    decide +kernel
  have hreached := htwice.renumbered hrenumber
  have hrefused : ¬IndexedGraph.Admits ⟨["b", "c", "b", "c"],
      [⟨2, 2, "="⟩, ⟨3, 2, "-"⟩, ⟨0, 0, "="⟩, ⟨1, 0, "-"⟩], [[2, 3], [3], [0, 1], [1]]⟩
      (.addEdge ⟨0, 4, "-"⟩) := fun h => absurd h.2 (by decide)
  obtain ⟨hsound, hchange, -⟩ := hreached.sound_of_changes
  exact ⟨hpair, _, hrenumber, hreached, rfl, hrefused, hsound,
    (hchange (.addEdge ⟨0, 4, "-"⟩) nofun).2 hrefused,
    (hchange (.append _) fun other heq => Change.append.inj heq ▸ hreached).1 trivial⟩

end IndexedGraph

end GraphGrammar
