import Mathlib.Data.List.Find
import GraphGrammar.Proofs.Arena.Reached
import GraphGrammar.Proofs.Arena.Stored
import GraphGrammar.Proofs.Graph.Reached

/-!
# Stored arenas that are reached by calls

A stored arena begins empty or as a copy of a graph, and is changed any number of times. Of every
stored arena that is reached in this way, the three places of an edge agree, its slot and the slots
of its endpoints. A change that is refused leaves everything as it was. The arena that is stored
changes as the arena would, and compaction loses nothing.

## Main definitions

* `GraphGrammar.Arena.Edit.call` — a change as a call.
* `GraphGrammar.SlotTable.Reached` — the stored arenas to which changes lead.
* `GraphGrammar.SlotTable.IsSound`, `GraphGrammar.SlotTable.CompactsWhole`,
  `GraphGrammar.SlotTable.AnswersNew`.

## Main results

* `GraphGrammar.SlotTable.compact_eq` — compaction, as the compaction of arenas.
* `GraphGrammar.SlotTable.Reached.inStep` — reached stored arenas store reached arenas.
* `GraphGrammar.SlotTable.Reached.sound_of_calls` — what holds of every stored arena that is
  reached. -/

namespace GraphGrammar

/-! ### Changes as calls -/

/-- A change as a call whose answer is left aside. -/
def Arena.Edit.call : Arena.Edit → SlotCall Unit
  | addNode label => discard (SlotTable.addNode label)
  | addEdge e => discard (SlotTable.addEdge e)
  | setLabel v label => SlotTable.setLabel v label
  | removeEdge i => discard (SlotTable.removeEdge i)
  | removeNode v => SlotTable.removeNode v
  | extend t keep => discard (SlotTable.extend t keep)

namespace SlotTable

/-- The arena after a change, which may be refused. -/
def after (s : SlotTable) (edit : Arena.Edit) : SlotTable := (edit.call.perform s).2

/-- The arena after several changes. -/
def afterAll (s : SlotTable) (edits : List Arena.Edit) : SlotTable := edits.foldl after s

/-- What a change needs not to be refused: the nodes and the edge that it names must be there, and
no edge that is there may touch a node that is removed. -/
def Admits (s : SlotTable) : Arena.Edit → Prop
  | .addNode _ | .extend _ _ => True
  | .addEdge e => s.holdsNode e.source = true ∧ s.holdsNode e.target = true
  | .setLabel v _ => s.holdsNode v = true
  | .removeEdge i => ∃ e, s.edge i = .ok e
  | .removeNode v => s.holdsNode v = true ∧ ∀ i e, s.edge i = .ok e → e.touches v = false

/-- The stored arenas that are reached from the empty one and from copies of graphs. -/
inductive Reached : SlotTable → Prop
  /-- The empty arena. -/
  | nothing : Reached empty
  /-- A copy of a graph. -/
  | copy (t : GraphView) : Reached (ofGraph t)
  /-- One more change, refused or not. -/
  | step {s : SlotTable} (h : Reached s) (edit : Arena.Edit) : Reached (s.after edit)

/-- Edges join nodes that are there. The set of a node that is there has exactly the edges that
touch the node and are there, and the set of a node that is gone is empty. -/
structure IsSound (s : SlotTable) : Prop where
  /-- Edges join nodes. -/
  joins : ∀ i e, s.edge i = .ok e → s.holdsNode e.source = true ∧ s.holdsNode e.target = true
  /-- Nodes know the edges that touch them. -/
  knows : ∀ (v : Nat) (slot : NodeSlot), s.nodes[v]? = some slot → slot.isAlive = true →
    ∀ i, i ∈ slot.incident.toList ↔ ∃ e, s.edge i = .ok e ∧ e.touches v = true
  /-- A node that is gone knows of no edge. -/
  forgets : ∀ (v : Nat) (slot : NodeSlot), s.nodes[v]? = some slot → slot.isAlive = false →
    slot.incident = ∅

/-- Compaction answers the numbers of the nodes that are there, which are counted on from zero in
the order of their slots. In the graph are these nodes with their labels, and all edges that are
there in the order of their slots, each between the numbers of its endpoints. -/
structure CompactsWhole (s : SlotTable) (remap : List (Option Nat)) (g : IndexedGraph) : Prop where
  /-- This is the compaction. -/
  compact_eq : s.compact = (.ok remap, g)
  /-- Every slot has an entry. -/
  length_remap : remap.length = s.nodes.length
  /-- Exactly the nodes that are there get numbers. -/
  isSome_remap : ∀ v, (remap[v]?).join.isSome = s.holdsNode v
  /-- In the order of the slots, the numbers are those from zero on. -/
  numbers_eq : remap.filterMap id = List.range s.aliveNodes
  /-- There are as many nodes. -/
  nodeCount_eq : g.labels.length = s.aliveNodes
  /-- Nodes keep their labels. -/
  label_eq : ∀ v k, (remap[v]?).join = some k →
    ∃ label, s.label v = .ok label ∧ g.labels[k]? = some label
  /-- There are as many edges. -/
  edgeCount_eq : g.edges.length = s.aliveEdges
  /-- The edges are those that are there, in their order, each with its endpoints renumbered. -/
  edges_eq : g.edges.map (fun e => (some e.source, some e.target, e.label)) =
    (s.edges.filter EdgeSlot.isAlive).map fun slot =>
      ((remap[slot.edge.source]?).join, (remap[slot.edge.target]?).join, slot.edge.label)
  /-- The numbers that the graph holds for its nodes follow from its edges. -/
  sound : g.IsSound

/-- The numbers that calls answer were not in use before. -/
structure AnswersNew (s : SlotTable) : Prop where
  /-- The number of a node that is added. -/
  addNode : ∀ label, ∃ s', (SlotTable.addNode label).perform s = (.ok s.nodes.length, s') ∧
    s'.label s.nodes.length = .ok label
  /-- The number of an edge that is added. -/
  addEdge : ∀ e i s', (SlotTable.addEdge e).perform s = (.ok i, s') →
    i = s.edges.length ∧ s'.edge i = .ok e
  /-- The numbers of the nodes of a copy. Exactly those nodes get one whose flags are set. -/
  extend : ∀ t keep, ∃ slots s', (SlotTable.extend t keep).perform s = (.ok slots, s') ∧
    (∀ v, (slots[v]?).join.isSome = (decide (v < t.nodeCount) && keep.getD v false)) ∧
    (slots.filterMap id).Pairwise (· < ·) ∧
    ∀ k, some k ∈ slots → s.nodes.length ≤ k ∧ s'.holdsNode k = true

variable {s s' : SlotTable} {edit : Arena.Edit}

theorem edge_eq_ok_iff_edgeSlots {i : Nat} {e : Edge} :
    s.edge i = .ok e ↔ (s.edgeSlots[i]?).join = some e := by
  rw [← edge_arena, Arena.edge_eq_ok_iff]
  rfl

theorem mem_touching_edgeSlots {i v : Nat} :
    i ∈ touching s.edgeSlots v ↔ ∃ e, s.edge i = .ok e ∧ e.touches v = true := by
  simp only [mem_touching, edge_eq_ok_iff_edgeSlots]

/-- No edge touches a node exactly if nothing is entered in any slot. -/
theorem touching_eq_nil_iff {v : Nat} :
    touching s.edgeSlots v = [] ↔ ∀ i e, s.edge i = .ok e → e.touches v = false := by
  rw [List.eq_nil_iff_forall_not_mem]
  simp only [mem_touching_edgeSlots, not_exists, not_and, Bool.not_eq_true]

/-! ### One change -/

/-- **A change that finds what it needs** is made, to the slots that are stored and to those of the
arena alike. -/
theorem InStep.exists_becomes (h : s.InStep) (hadmits : s.Admits edit) :
    ∃ labels edges s', edit.call.perform s = (.ok (), s') ∧ s.Becomes labels edges s' ∧
      (Arena.ofSlots s.labelSlots s.edgeSlots).perform edit = .ok (.ofSlots labels edges) := by
  have hfind : ∀ {v}, s.holdsNode v = true → ∃ label, (s.labelSlots[v]?).join = some label :=
    fun hv => Arena.alive_iff_exists.mp ((alive_labelSlots s _).trans hv)
  cases edit with
  | addNode label =>
    have hfree := Arena.touching_eq_nil (Nat.le_refl _) fun e => h.lt_of_mem_edgeSlots (e := e)
    exact ⟨_, _, _, SlotCall.perform_discard_of_ok rfl, h.becomes_append [label],
      congrArg Except.ok (Arena.addNode_ofSlots hfree label)⟩
  | addEdge e =>
    obtain ⟨hs, ht⟩ := hadmits
    obtain ⟨label, hlabel⟩ := hfind hs
    obtain ⟨label', hlabel'⟩ := hfind ht
    obtain ⟨s', hadd, hbecomes⟩ := h.exists_perform_addEdge hs ht
    exact ⟨_, _, s', SlotCall.perform_discard_of_ok hadd, hbecomes,
      Arena.addEdge_ofSlots hlabel hlabel'⟩
  | setLabel v label =>
    obtain ⟨old, hold⟩ := hfind hadmits
    obtain ⟨s', hset, hbecomes⟩ := h.exists_perform_setLabel hadmits label
    exact ⟨_, _, s', hset, hbecomes, Arena.setLabel_ofSlots hold label⟩
  | removeEdge i =>
    obtain ⟨e, he⟩ := hadmits
    obtain ⟨s', hremove, hbecomes⟩ := h.exists_perform_removeEdge he
    refine ⟨_, _, s', SlotCall.perform_discard_of_ok hremove, hbecomes, ?_⟩
    exact Arena.removeEdge_ofSlots (edge_eq_ok_iff_edgeSlots.mp he)
  | removeNode v =>
    obtain ⟨hv, hfree⟩ := hadmits
    obtain ⟨label, hlabel⟩ := hfind hv
    rw [← touching_eq_nil_iff] at hfree
    obtain ⟨s', hremove, hbecomes⟩ := h.exists_perform_removeNode hv hfree
    exact ⟨_, _, s', hremove, hbecomes, Arena.removeNode_ofSlots hlabel hfree⟩
  | extend t keep =>
    have hlength : s.labelSlots.length = s.nodes.length := List.length_map _
    obtain ⟨s', hextend, hbecomes⟩ := h.exists_perform_extend t keep
    refine ⟨_, _, s', SlotCall.perform_discard_of_ok hextend, hbecomes, ?_⟩
    rw [← hlength]
    exact congrArg (Except.ok ·.1) (Arena.extend_ofSlots h.joins t keep)

/-- **A change that does not find what it needs** is refused for the same cause, and nothing is
changed. -/
theorem InStep.exists_perform_of_not_admits (h : s.InStep) (hadmits : ¬s.Admits edit) :
    ∃ fault, edit.call.perform s = (.error fault, s) ∧ s.arena.perform edit = .error fault := by
  have hread : ∀ {v}, ¬s.holdsNode v = true → ∃ fault,
      (readNode v).perform s = (.error fault, s) ∧ s.arena.node v = .error fault := fun {v} hv => by
    cases hnode : s.node v with
    | ok slot => exact absurd (holdsNode_eq_true_iff.mpr ⟨slot, hnode⟩) hv
    | error fault => exact ⟨fault, hnode ▸ perform_readNode s v, by rw [node_arena, hnode]; rfl⟩
  cases edit with
  | addNode | extend => exact absurd trivial hadmits
  | addEdge e =>
    by_cases hs : s.holdsNode e.source = true
    · obtain ⟨slot, hslot⟩ := holdsNode_eq_true_iff.mp hs
      have hsource : (readNode e.source).perform s = (.ok slot, s) := hslot ▸ perform_readNode ..
      obtain ⟨fault, htarget, hfault⟩ := hread fun ht => hadmits ⟨hs, ht⟩
      refine ⟨fault, SlotCall.perform_discard_of_error ?_, ?_⟩
      · rw [addEdge, SlotCall.perform_bind_of_ok hsource, SlotCall.perform_bind_of_error htarget]
      · rw [Arena.perform, Arena.addEdge, node_arena, hslot, hfault]
        rfl
    · obtain ⟨fault, hsource, hfault⟩ := hread hs
      refine ⟨fault,
        SlotCall.perform_discard_of_error (SlotCall.perform_bind_of_error hsource _), ?_⟩
      rw [Arena.perform, Arena.addEdge, hfault]
      rfl
  | setLabel v label =>
    obtain ⟨fault, hnode, hfault⟩ := hread hadmits
    refine ⟨fault, SlotCall.perform_bind_of_error hnode _, ?_⟩
    rw [Arena.perform, Arena.setLabel, hfault]
    rfl
  | removeEdge i =>
    cases hedge : s.edge i with
    | ok e => exact absurd ⟨e, hedge⟩ hadmits
    | error fault =>
      have hread : (readEdge i).perform s = (.error fault, s) := hedge ▸ perform_readEdge s i
      refine ⟨fault, SlotCall.perform_discard_of_error (SlotCall.perform_bind_of_error hread _), ?_⟩
      rw [Arena.perform, Arena.removeEdge, edge_arena, hedge]
      rfl
  | removeNode v =>
    by_cases hv : s.holdsNode v = true
    · obtain ⟨slot, hslot⟩ := holdsNode_eq_true_iff.mp hv
      have hnode : (readNode v).perform s = (.ok slot, s) := hslot ▸ perform_readNode s v
      have htouched : slot.incident.toList.isEmpty = false := by
        rw [List.isEmpty_eq_false_iff, h.incident_eq (node_eq_ok_iff.mp hslot).1]
        exact fun hfree => hadmits ⟨hv, touching_eq_nil_iff.mp hfree⟩
      refine ⟨.nodeNotIsolated v slot.incident.toList.length, ?_, ?_⟩
      · rw [Arena.Edit.call, removeNode, SlotCall.perform_bind_of_ok hnode, SortedSet.isEmpty,
          htouched]
        rfl
      · rw [Arena.perform, Arena.removeNode, node_arena, hslot]
        exact if_neg (by rw [htouched]; exact Bool.false_ne_true)
    · obtain ⟨fault, hnode, hfault⟩ := hread hv
      refine ⟨fault, SlotCall.perform_bind_of_error hnode _, ?_⟩
      rw [Arena.perform, Arena.removeNode, hfault]
      rfl

/-! ### Compaction -/

/-- The nodes that are there are added to a graph. -/
theorem perform_compactNodes (s : SlotTable) :
    s.compactNodes.perform IndexedGraph.empty = (.ok s.arena.remap,
      IndexedGraph.ofLists ((s.nodes.filter NodeSlot.isAlive).map NodeSlot.label) []) := by
  have hrun := run_mapM_kept IndexedGraph.addNode (IndexedGraph.ofLists · []) 0
    (fun labels label => ?_) NodeSlot.isAlive NodeSlot.label s.nodes []
  · have hflags : s.arena.nodes.map Option.isSome = s.nodes.map NodeSlot.isAlive := by
      rw [arena, List.map_map]
      refine List.map_congr_left fun slot _ => ?_
      rw [Function.comp_apply, NodeSlot.arenaNode?]
      cases slot.isAlive <;> rfl
    rw [List.nil_append, ← hflags] at hrun
    exact hrun
  · rw [Nat.zero_add]
    exact IndexedGraph.perform_addNode_ofLists (fun e he => absurd he List.not_mem_nil) label

theorem labels_compact_arena (s : SlotTable) :
    s.arena.compact.labels = (s.nodes.filter NodeSlot.isAlive).map NodeSlot.label := by
  show ((s.nodes.map NodeSlot.arenaNode?).filterMap id).map ArenaNode.label = _
  induction s.nodes with
  | nil => rfl
  | cons slot nodes ih =>
    rw [List.map_cons, List.filterMap_cons, NodeSlot.arenaNode?, List.filter_cons]
    cases slot.isAlive with
    | true => exact congrArg (slot.label :: ·) ih
    | false => exact ih

theorem present_edgeSlots (s : SlotTable) :
    s.edgeSlots.filterMap id = (s.edges.filter EdgeSlot.isAlive).map EdgeSlot.edge := by
  rw [edgeSlots]
  induction s.edges with
  | nil => rfl
  | cons slot edges ih =>
    rw [List.map_cons, List.filterMap_cons, EdgeSlot.edge?, List.filter_cons]
    cases slot.isAlive with
    | true => exact congrArg (slot.edge :: ·) ih
    | false => exact ih

/-- An edge is added between the new numbers of its endpoints, if both have one. -/
theorem perform_compactEdge (a : Arena) (edges : List Edge) (e : Edge) :
    (compactEdge a.remap e).perform (IndexedGraph.ofLists a.compact.labels edges) =
      (.ok (), IndexedGraph.ofLists a.compact.labels (edges ++ (a.remapEdge e).toList)) := by
  have hnothing : GraphCall.perform (pure ()) (IndexedGraph.ofLists a.compact.labels edges) =
      (.ok (), IndexedGraph.ofLists a.compact.labels (edges ++ [])) := by
    rw [List.append_nil]
    rfl
  rw [compactEdge, Arena.remapEdge]
  cases hs : (a.remap[e.source]?).join with
  | none => exact hnothing
  | some v =>
    cases ht : (a.remap[e.target]?).join with
    | none => exact hnothing
    | some w =>
      have hadd : (IndexedGraph.addEdge ⟨v, w, e.label⟩).perform
          (IndexedGraph.ofLists a.compact.labels edges) = (.ok edges.length,
            IndexedGraph.ofLists a.compact.labels (edges ++ [⟨v, w, e.label⟩])) :=
        IndexedGraph.perform_addEdge_ofLists (Arena.remap_lt hs) (Arena.remap_lt ht)
      exact run_tryCatch_of_ok (GraphCall.perform_discard_of_ok hadd) _

theorem perform_compactEdges (a : Arena) (edges new : List Edge) :
    GraphCall.perform (forM new (compactEdge a.remap))
      (IndexedGraph.ofLists a.compact.labels edges) =
      (.ok (), IndexedGraph.ofLists a.compact.labels (edges ++ new.filterMap a.remapEdge)) := by
  induction new generalizing edges with
  | nil =>
    rw [List.filterMap_nil, List.append_nil]
    rfl
  | cons e new ih =>
    rw [List.forM_cons, GraphCall.perform_bind_of_ok (perform_compactEdge a edges e), ih,
      List.filterMap_cons, List.append_assoc]
    cases a.remapEdge e <;> rfl

/-- **Compaction of a stored arena** gives the numbers of the nodes and the compacted arena, as it
is stored. -/
theorem compact_eq (s : SlotTable) : s.compact = (.ok s.arena.remap, s.arena.compact.indexed) := by
  have hnodes := s.perform_compactNodes
  rw [← labels_compact_arena] at hnodes
  have hedges := perform_compactEdges s.arena [] (s.edgeSlots.filterMap id)
  rw [present_edgeSlots, List.forM_map, List.nil_append, ← present_edgeSlots] at hedges
  rw [compact, compactInto, GraphCall.perform_bind_of_ok hnodes,
    GraphCall.perform_bind_of_ok hedges]
  rfl

/-! ### Stored arenas in step -/

theorem InStep.isSound (h : s.InStep) : s.IsSound where
  joins i e he := by
    have hjoins := h.joins.of_getElem? (edge_eq_ok_iff_edgeSlots.mp he)
    rwa [alive_labelSlots, alive_labelSlots] at hjoins
  knows v slot hslot _ i := (h.mem_incident_iff hslot).trans mem_touching_edgeSlots
  forgets v slot hslot hgone := by
    have hv : Arena.alive s.labelSlots v = false := by
      rw [alive_labelSlots, holdsNode, hslot, Option.any_some, hgone]
    exact SortedSet.eq_of_toList_eq ((h.incident_eq hslot).trans (h.joins.touching_eq_nil hv))

theorem aliveNodes_arena (s : SlotTable) : s.arena.aliveNodes = s.aliveNodes := by
  rw [Arena.aliveNodes, arena, List.countP_map, aliveNodes]
  refine List.countP_congr fun slot _ => ?_
  rw [Function.comp_apply, NodeSlot.arenaNode?]
  cases slot.isAlive <;> simp

theorem aliveEdges_arena (s : SlotTable) : s.arena.aliveEdges = s.aliveEdges := by
  rw [Arena.aliveEdges, arena, edgeSlots, List.countP_map, aliveEdges]
  refine List.countP_congr fun slot _ => ?_
  rw [Function.comp_apply, EdgeSlot.edge?]
  cases slot.isAlive <;> simp

theorem label_arena (s : SlotTable) (v : Nat) : s.arena.label v = s.label v := by
  rw [Arena.label, node_arena, label]
  cases s.node v <;> rfl

/-- **Compaction** drops nothing of a stored arena that is in step. -/
theorem InStep.compactsWhole (h : s.InStep) :
    s.CompactsWhole s.arena.remap s.arena.compact.indexed := by
  have hwhole : s.arena.CompactsWhole := h.arena_eq ▸ Arena.compactsWhole_ofSlots h.joins
  refine ⟨s.compact_eq, ?_, fun v => (hwhole.isSome_remap v).trans (holdsNode_arena s v), ?_,
    hwhole.nodeCount_eq.trans s.aliveNodes_arena, fun v k hk => ?_,
    hwhole.edgeCount_eq.trans s.aliveEdges_arena, ?_, IndexedGraph.isSound_indexed _⟩
  · rw [Arena.remap, length_numberKept, arena, List.length_map, List.length_map]
  · rw [hwhole.numbers_eq, aliveNodes_arena]
  · rw [← label_arena]
    exact hwhole.label_eq v k hk
  · have hedges := Arena.edges_compact_ofSlots h.joins
    rw [present, present_edgeSlots] at hedges
    rw [Graph.edges_indexed, h.arena_eq, hedges, List.map_map, List.map_map]
    refine List.map_congr_left fun slot hslot => ?_
    obtain ⟨hmem, halive⟩ := List.mem_filter.mp hslot
    have hpresent : some slot.edge ∈ s.edgeSlots :=
      List.mem_map.mpr ⟨slot, hmem, by rw [EdgeSlot.edge?, halive, if_pos rfl]⟩
    obtain ⟨hs, ht⟩ := h.joins _ hpresent
    rw [Arena.join_getElem?_remap_ofSlots, Arena.join_getElem?_remap_ofSlots, hs, ht]
    rfl

/-- **Calls that add** answer numbers that were not in use. -/
theorem InStep.answersNew (h : s.InStep) : s.AnswersNew where
  addNode label := by
    have hnode : node ⟨s.nodes ++ [.fresh label], s.edges⟩ s.nodes.length =
        .ok (.fresh label) := node_eq_ok_iff.mpr ⟨List.getElem?_concat_length, rfl⟩
    exact ⟨_, rfl, by rw [SlotTable.label, hnode]; rfl⟩
  addEdge e i s' hadd := by
    by_cases hjoins : s.holdsNode e.source = true ∧ s.holdsNode e.target = true
    · obtain ⟨s'', hadd', hbecomes⟩ := h.exists_perform_addEdge hjoins.1 hjoins.2
      cases hadd'.symm.trans hadd
      refine ⟨rfl, edge_eq_ok_iff_edgeSlots.mpr ?_⟩
      have hlength : s.edgeSlots.length = s.edges.length := List.length_map _
      rw [hbecomes.edgeSlots_eq, ← hlength, List.getElem?_concat_length, Option.join_some]
    · obtain ⟨fault, hrefused, -⟩ := @exists_perform_of_not_admits s (.addEdge e) h hjoins
      have hmade := SlotCall.perform_discard_of_ok hadd
      cases hmade.symm.trans hrefused
  extend t keep := by
    obtain ⟨s', hextend, hbecomes⟩ := h.exists_perform_extend t keep
    have hlength : s.labelSlots.length = s.nodes.length := List.length_map _
    refine ⟨_, s', hextend, fun v => ?_, ?_, fun k hk => ?_⟩
    · rw [GraphView.copiedSlots, getElem?_numberKept, List.getElem?_map]
      by_cases hv : v < t.nodeCount
      · rw [List.getElem?_range hv, decide_eq_true hv, Option.map_some, Option.map_some,
          Option.join_some]
        cases keep.getD v false <;> rfl
      · rw [List.getElem?_eq_none (by simpa using hv), decide_eq_false hv]
        rfl
    · rw [GraphView.copiedSlots, Arena.filterMap_id_numberKept]
      exact List.pairwise_lt_range'
    · rw [← hlength] at hk ⊢
      obtain ⟨hle, halive⟩ := Arena.fresh_of_mem_copiedSlots hk
      rw [← hbecomes.labelSlots_eq, alive_labelSlots] at halive
      exact ⟨hle, halive⟩

/-! ### Reads -/

/-- What is entered at a node is there, so that its slot is read as it is in the arena. -/
theorem slotSatisfies_of_mem {v i : Nat} (hi : i ∈ touching s.edgeSlots v)
    (condition : Edge → Bool) :
    s.slotSatisfies condition i = s.arena.edgeSatisfies condition i := by
  obtain ⟨e, he, -⟩ := mem_touching_edgeSlots.mp hi
  have hslot : (s.arena.edges[i]?).join = some e := edge_eq_ok_iff_edgeSlots.mp he
  rw [slotSatisfies, edge_eq_ok_iff.mp he, Arena.edgeSatisfies, hslot]
  rfl

theorem InStep.filter_incident (h : s.InStep) {v : Nat} {slot : NodeSlot}
    (hslot : s.node v = .ok slot) (condition : Edge → Bool) :
    slot.incident.toList.filter (s.slotSatisfies condition) =
      slot.incident.toList.filter (s.arena.edgeSatisfies condition) := by
  rw [h.incident_eq (node_eq_ok_iff.mp hslot).1]
  exact List.filter_congr fun i hi => slotSatisfies_of_mem hi condition

theorem incident_arena (s : SlotTable) (v : Nat) : s.arena.incident v = s.incident v := by
  rw [Arena.incident, node_arena, incident]
  cases s.node v <;> rfl

theorem InStep.selfLoops_arena (h : s.InStep) (v : Nat) :
    s.arena.selfLoops v = s.selfLoops v := by
  rw [Arena.selfLoops, node_arena, selfLoops]
  cases hslot : s.node v with
  | error fault => rfl
  | ok slot => exact congrArg Except.ok (h.filter_incident hslot _).symm

theorem InStep.slotsBetween_arena (h : s.InStep) (v w : Nat) :
    s.arena.slotsBetween v w = s.slotsBetween v w := by
  rw [Arena.slotsBetween, node_arena, node_arena, slotsBetween]
  cases s.node w with
  | error fault => rfl
  | ok other =>
    cases hslot : s.node v with
    | error fault => rfl
    | ok slot => exact congrArg Except.ok (h.filter_incident hslot _).symm

theorem InStep.slotBetween_arena (h : s.InStep) (v w : Nat) (label : String) :
    s.arena.slotBetween v w label = s.slotBetween v w label := by
  rw [Arena.slotBetween, h.slotsBetween_arena, slotBetween, slotsBetween]
  cases s.node w with
  | error fault => rfl
  | ok other =>
    cases hslot : s.node v with
    | error fault => rfl
    | ok slot =>
      refine congrArg Except.ok (List.find?_congr fun i hi => ?_)
      have hmem := (List.mem_filter.mp hi).1
      rw [h.incident_eq (node_eq_ok_iff.mp hslot).1] at hmem
      exact (slotSatisfies_of_mem hmem _).symm

/-! ### Reached arenas -/

theorem inStep_empty : empty.InStep := ⟨joinsNodes_nil _, nofun⟩

/-- A copy of a graph is in step, and what is stored is the copy that the arena has. -/
theorem inStep_ofGraph (t : GraphView) :
    (ofGraph t).InStep ∧ (ofGraph t).arena = Arena.ofGraph t := by
  obtain ⟨s', hextend, hbecomes⟩ :=
    inStep_empty.exists_perform_extend t (List.replicate t.nodeCount true)
  have hcopy := Arena.extend_ofSlots inStep_empty.joins t (List.replicate t.nodeCount true)
  rw [ofGraph, hextend]
  exact ⟨hbecomes.inStep, hbecomes.arena_eq.trans (congrArg Prod.fst hcopy).symm⟩

/-- **A change keeps a stored arena in step**, and changes the arena that is stored as it would
change the arena. -/
theorem InStep.after (h : s.InStep) (edit : Arena.Edit) :
    (s.after edit).InStep ∧ s.Evolves (s.after edit) ∧
      (s.after edit).arena = s.arena.after edit := by
  by_cases hadmits : s.Admits edit
  · obtain ⟨labels, edges, s', hmade, hbecomes, harena⟩ := h.exists_becomes hadmits
    rw [SlotTable.after, hmade, Arena.after, h.arena_eq, harena]
    exact ⟨hbecomes.inStep, hbecomes.evolves, hbecomes.arena_eq⟩
  · obtain ⟨fault, hrefused, harena⟩ := h.exists_perform_of_not_admits hadmits
    rw [SlotTable.after, hrefused, Arena.after, harena]
    exact ⟨h, .refl s, rfl⟩

/-- **Stored arenas that are reached** are in step, and store arenas that are reached. -/
theorem Reached.inStep (h : s.Reached) : s.InStep ∧ s.arena.Reached := by
  induction h with
  | nothing => exact ⟨inStep_empty, .nothing⟩
  | copy t =>
    obtain ⟨hstep, harena⟩ := inStep_ofGraph t
    exact ⟨hstep, harena ▸ .copy t⟩
  | @step s _ edit ih =>
    obtain ⟨hstep, -, harena⟩ := ih.1.after edit
    exact ⟨hstep, harena ▸ ih.2.step edit⟩

theorem Reached.steps (h : s.Reached) (edits : List Arena.Edit) : (s.afterAll edits).Reached := by
  induction edits generalizing s with
  | nil => exact h
  | cons edit edits ih => exact ih (h.step edit)

/-- **Any number of changes** uses no slot a second time. -/
theorem Reached.evolves_afterAll (h : s.Reached) (edits : List Arena.Edit) :
    s.Evolves (s.afterAll edits) := by
  induction edits generalizing s with
  | nil => exact .refl s
  | cons edit edits ih => exact (h.inStep.1.after edit).2.1.trans (ih (h.step edit))

/-- **What holds of every stored arena that is reached.** It is sound, and its compaction drops
nothing. Later changes use none of its slots a second time, and calls that add answer new numbers. A
change is made if what it needs is there, and otherwise it is refused and changes nothing. -/
theorem Reached.sound_of_calls (h : s.Reached) :
    s.IsSound ∧ (∃ remap g, s.CompactsWhole remap g) ∧ (∀ edits, s.Evolves (s.afterAll edits)) ∧
      s.AnswersNew ∧ ∀ edit : Arena.Edit,
        (s.Admits edit → edit.call.perform s = (.ok (), s.after edit)) ∧
        (¬s.Admits edit → ∃ fault, edit.call.perform s = (.error fault, s)) := by
  obtain ⟨hstep, -⟩ := h.inStep
  refine ⟨hstep.isSound, ⟨_, _, hstep.compactsWhole⟩, h.evolves_afterAll, hstep.answersNew,
    fun edit => ⟨fun hadmits => ?_, fun hadmits => ?_⟩⟩
  · obtain ⟨labels, edges, s', hmade, -⟩ := hstep.exists_becomes hadmits
    rw [SlotTable.after, hmade]
  · obtain ⟨fault, hrefused, -⟩ := hstep.exists_perform_of_not_admits hadmits
    exact ⟨fault, hrefused⟩

/-- A node with a loop, joined twice to another one. -/
def looped : Graph := ⟨["a", "b"], [⟨0, 0, "l"⟩, ⟨0, 1, "x"⟩, ⟨1, 0, "y"⟩], by decide⟩

/-- Changes by which the node with the loop is removed, but only after its edges; the first and the
last one are refused. -/
def uprooting : List Arena.Edit :=
  [.removeNode 0, .removeEdge 0, .removeEdge 1, .removeEdge 2, .removeNode 0,
    .extend looped.view [false, true], .addEdge ⟨2, 1, "z"⟩, .addEdge ⟨0, 1, "z"⟩]

/-- The node with the loop is gone after the changes. A change that names it is refused, and no
later change brings it back. -/
theorem Reached.sound_of_calls_uprooting :
    ((ofGraph looped.view).afterAll uprooting).Reached ∧
      (ofGraph looped.view).afterAll uprooting =
        ⟨[⟨false, "a", ∅⟩, ⟨true, "b", .ofList [3]⟩, ⟨true, "b", .ofList [3]⟩],
          [⟨false, 0, 0, "l"⟩, ⟨false, 0, 1, "x"⟩, ⟨false, 0, 1, "y"⟩, ⟨true, 2, 1, "z"⟩]⟩ ∧
      ((ofGraph looped.view).afterAll uprooting).compact =
        (.ok [none, some 0, some 1], ⟨["b", "b"], [⟨1, 0, "z"⟩], [[0], [0]]⟩) ∧
      ((ofGraph looped.view).afterAll uprooting).IsSound ∧
      (∃ remap g, ((ofGraph looped.view).afterAll uprooting).CompactsWhole remap g) ∧
      ((ofGraph looped.view).afterAll uprooting).AnswersNew ∧
      (∃ fault, (Arena.Edit.setLabel 0 "c").call.perform
        ((ofGraph looped.view).afterAll uprooting) =
          (.error fault, (ofGraph looped.view).afterAll uprooting)) ∧
      ∀ edits, (((ofGraph looped.view).afterAll uprooting).afterAll edits).nodes[0]? =
        some ⟨false, "a", ∅⟩ := by
  have hreached : ((ofGraph looped.view).afterAll uprooting).Reached :=
    (Reached.copy looped.view).steps uprooting
  have htable : (ofGraph looped.view).afterAll uprooting =
      ⟨[⟨false, "a", ∅⟩, ⟨true, "b", .ofList [3]⟩, ⟨true, "b", .ofList [3]⟩],
        [⟨false, 0, 0, "l"⟩, ⟨false, 0, 1, "x"⟩, ⟨false, 0, 1, "y"⟩, ⟨true, 2, 1, "z"⟩]⟩ := by
    decide +kernel
  obtain ⟨hsound, hcompacts, hevolves, hnew, hedit⟩ := hreached.sound_of_calls
  exact ⟨hreached, htable, by decide +kernel, hsound, hcompacts, hnew,
    (hedit (.setLabel 0 "c")).2 (by rw [htable]; exact Bool.false_ne_true), fun edits =>
    (hevolves edits).node_gone 0 ⟨false, "a", ∅⟩ (by rw [htable]; rfl) rfl⟩

end SlotTable

end GraphGrammar
