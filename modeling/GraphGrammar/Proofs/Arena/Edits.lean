import GraphGrammar.Proofs.Arena.Hosts

/-!
# Arenas under change

An arena is changed by adding nodes, edges and copies of graphs, by replacing labels, and by
removing nodes and edges. A change that names what is not there, or that removes a node that still
knows of an edge, is refused.

On the slots of an arena, a change that is not refused does one of four things: it puts nodes and
edges behind those that are there, it replaces a label, it empties the slot of an edge, or it
empties the slot of a node that no edge touches.

## Main definitions

* `GraphGrammar.Arena.Edit`, `GraphGrammar.Arena.perform`, `GraphGrammar.Arena.after` — changes.
* `GraphGrammar.Arena.Admits` — what a change needs.
* `GraphGrammar.SlotStep` — what a change does to the slots.
* `GraphGrammar.GraphView.copiedLabels`, `copiedSlots`, `copiedEdges` — a copy of a part of a graph.

## Main results

* `GraphGrammar.Arena.exists_perform_eq_ok_iff` — which changes are refused.
* `GraphGrammar.Arena.exists_slotStep` — a change that is not refused is one of the four.
* `GraphGrammar.SlotStep.joinsNodes` — after each of the four, edges join nodes if they did before.
-/

namespace GraphGrammar

/-! ### Changes -/

namespace Arena

/-- A change of an arena. -/
inductive Edit where
  /-- A node is added. -/
  | addNode (label : String)
  /-- An edge between two nodes is added. -/
  | addEdge (e : Edge)
  /-- The label of a node is replaced. -/
  | setLabel (v : Nat) (label : String)
  /-- An edge is removed. -/
  | removeEdge (i : Nat)
  /-- A node is removed. -/
  | removeNode (v : Nat)
  /-- A copy of a part of a graph is added. -/
  | extend (t : GraphView) (keep : List Bool)

variable {a a' a'' : Arena} {edit : Edit}

/-- The arena that a change gives, unless the change is refused. -/
def perform (a : Arena) : Edit → Except Fault Arena
  | .addNode label => .ok (a.addNode label)
  | .addEdge e => a.addEdge e
  | .setLabel v label => a.setLabel v label
  | .removeEdge i => a.removeEdge i
  | .removeNode v => a.removeNode v
  | .extend t keep => .ok (a.extend t keep).1

/-- The arena after a change. One that is refused changes nothing. -/
def after (a : Arena) (edit : Edit) : Arena := (a.perform edit).toOption.getD a

/-- What a change needs not to be refused: the nodes and the edge that it names must be there, and a
node that is removed must know of no edge. -/
def Admits (a : Arena) : Edit → Prop
  | .addNode _ | .extend _ _ => True
  | .addEdge e => a.holdsNode e.source = true ∧ a.holdsNode e.target = true
  | .setLabel v _ => a.holdsNode v = true
  | .removeEdge i => ∃ e, a.edge i = .ok e
  | .removeNode v => a.incident v = .ok []

/-! ### Reading -/

theorem edge_eq_ok_iff {i : Nat} {e : Edge} :
    a.edge i = .ok e ↔ (a.edges[i]?).join = some e := by
  rw [edge]
  cases (a.edges[i]?).join <;> simp

theorem holdsNode_eq_true_iff {v : Nat} : a.holdsNode v = true ↔ ∃ n, a.node v = .ok n := by
  rw [holdsNode, node]
  cases (a.nodes[v]?).join <;> simp

theorem incident_eq_ok_iff {v : Nat} {slots : List Nat} :
    a.incident v = .ok slots ↔ ∃ n, a.node v = .ok n ∧ n.incident = slots := by
  rw [incident]
  cases a.node v <;> simp [bind, Except.bind, pure, Except.pure]

/-- **A change is refused** exactly if what it needs is not there. -/
theorem exists_perform_eq_ok_iff : (∃ a', a.perform edit = .ok a') ↔ a.Admits edit := by
  cases edit with
  | addNode | extend => exact iff_of_true ⟨_, rfl⟩ trivial
  | addEdge e =>
    rw [Admits, holdsNode_eq_true_iff, holdsNode_eq_true_iff, perform, addEdge]
    cases a.node e.source <;> cases a.node e.target <;>
      simp [bind, Except.bind, pure, Except.pure]
  | setLabel v label =>
    rw [Admits, holdsNode_eq_true_iff, perform, setLabel]
    cases a.node v <;> simp [bind, Except.bind, pure, Except.pure]
  | removeEdge i =>
    rw [Admits, perform, removeEdge]
    cases a.edge i <;> simp [bind, Except.bind, pure, Except.pure]
  | removeNode v =>
    rw [Admits, incident_eq_ok_iff, perform, removeNode]
    cases a.node v with
    | error fault => simp [bind, Except.bind]
    | ok n =>
      cases hn : n.incident <;>
        simp [hn, bind, Except.bind, pure, Except.pure, throw, throwThe, MonadExceptOf.throw]

theorem after_of_not_admits (h : ¬a.Admits edit) :
    (∃ fault, a.perform edit = .error fault) ∧ a.after edit = a := by
  rw [after]
  cases hperform : a.perform edit with
  | error fault => exact ⟨⟨fault, rfl⟩, rfl⟩
  | ok a' => exact absurd (exists_perform_eq_ok_iff.mp ⟨a', hperform⟩) h

end Arena

/-! ### What a change does to the slots -/

/-- New numbers are counted on from the start. -/
theorem bounds_of_mem_numberKept {start k : Nat} {flags : List Bool}
    (h : some k ∈ numberKept start flags) : start ≤ k ∧ k < start + flags.count true := by
  obtain ⟨v, hv⟩ := List.mem_iff_getElem?.mp h
  refine ⟨?_, numberKept_lt hv⟩
  rw [getElem?_numberKept, Option.map_eq_some_iff] at hv
  obtain ⟨flag, -, hflag⟩ := hv
  split at hflag
  · rw [← Option.some.inj hflag]
    exact Nat.le_add_right _ _
  · cases hflag

theorem mem_of_getD_eq_some {slots : List (Option Nat)} {v k : Nat}
    (h : slots.getD v none = some k) : some k ∈ slots := by
  rw [List.getD_eq_getElem?_getD] at h
  cases hget : slots[v]? with
  | none =>
    rw [hget] at h
    cases h
  | some found =>
    rw [hget, Option.getD_some] at h
    exact h ▸ List.mem_of_getElem? hget

namespace GraphView

variable (t : GraphView)

/-- The labels of the nodes whose flags are set. -/
def copiedLabels (keep : List Bool) : List String :=
  ((List.range t.nodeCount).filter fun v => keep.getD v false).map t.label

/-- The slots from `start` on that a copy of the nodes whose flags are set gets, for each node. -/
def copiedSlots (keep : List Bool) (start : Nat) : List (Option Nat) :=
  numberKept start ((List.range t.nodeCount).map fun v => keep.getD v false)

/-- The edges between nodes that get slots, between these slots. -/
def copiedEdges (slots : List (Option Nat)) : List Edge :=
  t.edgeList.filterMap fun e =>
    (slots.getD e.source none).bind fun v =>
      (slots.getD e.target none).map fun w => ⟨v, w, e.label⟩

end GraphView

/-- Every edge joins slots that hold nodes. -/
def JoinsNodes (labels : List (Option String)) (edges : List (Option Edge)) : Prop :=
  ∀ e : Edge, some e ∈ edges →
    Arena.alive labels e.source = true ∧ Arena.alive labels e.target = true

/-- What a change does to the labels in the slots of nodes and to the edges in the slots of edges.
-/
inductive SlotStep (labels : List (Option String)) (edges : List (Option Edge)) :
    List (Option String) → List (Option Edge) → Prop
  /-- Nodes and edges are put behind those that are there. -/
  | grow (newLabels : List String) (newEdges : List Edge)
    (joins : JoinsNodes (labels ++ newLabels.map some) (newEdges.map some)) :
    SlotStep labels edges (labels ++ newLabels.map some) (edges ++ newEdges.map some)
  /-- A label is replaced. -/
  | relabel {v : Nat} (alive : Arena.alive labels v = true) (label : String) :
    SlotStep labels edges (labels.set v (some label)) edges
  /-- The slot of an edge is emptied. -/
  | dropEdge (i : Nat) : SlotStep labels edges labels (edges.set i none)
  /-- The slot of a node is emptied that no edge touches. -/
  | dropNode {v : Nat} (untouched : touching edges v = []) :
    SlotStep labels edges (labels.set v none) edges

section

variable {labels labels' : List (Option String)} {edges edges' : List (Option Edge)} {v i : Nat}
  {e : Edge}

theorem joinsNodes_nil (labels : List (Option String)) : JoinsNodes labels [] := fun _ he =>
  absurd he List.not_mem_nil

/-- An edge that is there joins the slots of nodes. -/
theorem JoinsNodes.of_getElem? (h : JoinsNodes labels edges) (he : (edges[i]?).join = some e) :
    Arena.alive labels e.source = true ∧ Arena.alive labels e.target = true :=
  h e (List.mem_of_getElem? (Option.join_eq_some_iff.mp he))

/-- A node is touched by no edge if it is not there. -/
theorem JoinsNodes.touching_eq_nil (h : JoinsNodes labels edges)
    (hv : Arena.alive labels v = false) : touching edges v = [] := by
  refine List.eq_nil_iff_forall_not_mem.mpr fun i hi => ?_
  obtain ⟨e, he, htouch⟩ := mem_touching.mp hi
  obtain ⟨hs, ht⟩ := h.of_getElem? he
  rw [Edge.touches, Bool.or_eq_true, beq_iff_eq, beq_iff_eq] at htouch
  rcases htouch with rfl | rfl
  · exact absurd hs (by rw [hv]; exact Bool.false_ne_true)
  · exact absurd ht (by rw [hv]; exact Bool.false_ne_true)

namespace Arena

theorem alive_iff_exists : alive labels v = true ↔ ∃ label, (labels[v]?).join = some label :=
  Option.isSome_iff_exists

theorem lt_of_alive (h : alive labels v = true) : v < labels.length := by
  obtain ⟨label, hlabel⟩ := alive_iff_exists.mp h
  exact (List.getElem?_eq_some_iff.mp (Option.join_eq_some_iff.mp hlabel)).1

theorem alive_append_left (hv : v < labels.length) (new : List (Option String)) :
    alive (labels ++ new) v = alive labels v := by
  rw [alive, alive, List.getElem?_append_left hv]

theorem alive_append_right (new : List String) (hle : labels.length ≤ v)
    (hlt : v < labels.length + new.length) : alive (labels ++ new.map some) v = true := by
  rw [alive, List.getElem?_append_right hle, join_getElem?_map_some, Option.isSome_iff_exists]
  exact ⟨_, List.getElem?_eq_getElem (by omega)⟩

theorem alive_set_some (h : alive labels v = true) (label : String) (w : Nat) :
    alive (labels.set v (some label)) w = alive labels w := by
  rw [alive, List.getElem?_set]
  by_cases hw : v = w
  · subst hw
    rw [h]
    simp [lt_of_alive h]
  · rw [if_neg hw, alive]

theorem alive_set_none (labels : List (Option String)) (v w : Nat) :
    alive (labels.set v none) w = (alive labels w && !(v == w)) := by
  rw [alive, List.getElem?_set, alive]
  by_cases hw : v = w
  · subst hw
    by_cases hv : v < labels.length <;> simp [hv]
  · simp [hw]

/-! ### Arenas given by slots -/

theorem holdsNode_ofSlots (labels : List (Option String)) (edges : List (Option Edge)) (v : Nat) :
    (ofSlots labels edges).holdsNode v = alive labels v := by
  rw [holdsNode, getElem?_nodes_ofSlots, alive]
  rcases labels[v]? with _ | _ | label <;> rfl

theorem edge_ofSlots_eq_ok_iff : (ofSlots labels edges).edge i = .ok e ↔
    (edges[i]?).join = some e := edge_eq_ok_iff

theorem exists_label_of_holdsNode (h : (ofSlots labels edges).holdsNode v = true) :
    ∃ label, (labels[v]?).join = some label :=
  alive_iff_exists.mp (holdsNode_ofSlots labels edges v ▸ h)

/-- The slots of a copy are counted on from the start. -/
theorem bounds_of_mem_copiedSlots {t : GraphView} {keep : List Bool} {start k : Nat}
    (hk : some k ∈ t.copiedSlots keep start) :
    start ≤ k ∧ k < start + (t.copiedLabels keep).length := by
  have hcount : ((List.range t.nodeCount).map fun v => keep.getD v false).count true =
      (t.copiedLabels keep).length := by
    rw [List.count_eq_countP, List.countP_map, GraphView.copiedLabels, List.length_map,
      ← List.countP_eq_length_filter]
    exact List.countP_congr fun v _ => by simp
  exact hcount ▸ bounds_of_mem_numberKept hk

/-- The slots of a copy are new and hold nodes. -/
theorem fresh_of_mem_copiedSlots {t : GraphView} {keep : List Bool} {k : Nat}
    (hk : some k ∈ t.copiedSlots keep labels.length) :
    labels.length ≤ k ∧ alive (labels ++ (t.copiedLabels keep).map some) k = true := by
  obtain ⟨hle, hlt⟩ := bounds_of_mem_copiedSlots hk
  exact ⟨hle, alive_append_right _ hle hlt⟩

/-- The edges of a copy join the nodes of the copy. -/
theorem joinsNodes_copiedEdges (labels : List (Option String)) (t : GraphView)
    (keep : List Bool) : JoinsNodes (labels ++ (t.copiedLabels keep).map some)
      ((t.copiedEdges (t.copiedSlots keep labels.length)).map some) := by
  intro e he
  obtain ⟨e', -, he'⟩ := List.mem_filterMap.mp (some_mem_map_some.mp he)
  obtain ⟨v, hv, hrest⟩ := Option.bind_eq_some_iff.mp he'
  obtain ⟨w, hw, rfl⟩ := Option.map_eq_some_iff.mp hrest
  exact ⟨(fresh_of_mem_copiedSlots (mem_of_getD_eq_some hv)).2,
    (fresh_of_mem_copiedSlots (mem_of_getD_eq_some hw)).2⟩

/-- **A copy of a part of a graph** is put behind what is there. -/
theorem extend_ofSlots (h : JoinsNodes labels edges) (t : GraphView) (keep : List Bool) :
    (ofSlots labels edges).extend t keep =
      (ofSlots (labels ++ (t.copiedLabels keep).map some)
        (edges ++ (t.copiedEdges (t.copiedSlots keep labels.length)).map some),
      t.copiedSlots keep labels.length) := by
  let slots := t.copiedSlots keep labels.length
  have hedges : ∀ e : Edge, some e ∈ edges →
      e.source < labels.length ∧ e.target < labels.length := fun e he =>
    ⟨lt_of_alive (h e he).1, lt_of_alive (h e he).2⟩
  have hnew : (t.copiedEdges slots).map some = t.edgeList.filterMap fun e =>
      (slots.getD e.source none).bind fun v =>
        (slots.getD e.target none).map fun w => some (⟨v, w, e.label⟩ : Edge) := by
    rw [GraphView.copiedEdges, List.map_filterMap]
    refine List.filterMap_congr fun e _ => ?_
    cases slots.getD e.source none <;> cases slots.getD e.target none <;> rfl
  rw [hnew, extend, length_nodes_ofSlots]
  have hnodes := foldl_addNode_ofSlots labels hedges (t.copiedLabels keep)
  rw [GraphView.copiedLabels] at hnodes
  rw [hnodes]
  exact congrArg (·, slots) (foldl_appendEdge_ofSlots _ _ (slots.getD · none) _)

/-- **A change that is not refused** does one of four things to the slots. -/
theorem exists_slotStep (h : JoinsNodes labels edges) {edit : Edit}
    (hadmits : (ofSlots labels edges).Admits edit) : ∃ labels' edges',
      (ofSlots labels edges).after edit = ofSlots labels' edges' ∧
        SlotStep labels edges labels' edges' := by
  cases edit with
  | addNode label =>
    have hfree := touching_eq_nil (Nat.le_refl _) fun e he =>
      ⟨lt_of_alive (h e he).1, lt_of_alive (h e he).2⟩
    exact ⟨_, _, (addNode_ofSlots hfree label).trans (by rw [List.map_nil, List.append_nil]; rfl),
      .grow [label] [] (joinsNodes_nil _)⟩
  | addEdge e =>
    obtain ⟨hs, ht⟩ := hadmits
    obtain ⟨label, hlabel⟩ := exists_label_of_holdsNode hs
    obtain ⟨label', hlabel'⟩ := exists_label_of_holdsNode ht
    rw [holdsNode_ofSlots] at hs ht
    refine ⟨labels ++ [].map some, edges ++ [e].map some, ?_, .grow [] [e] fun e' he' => ?_⟩
    · rw [after, perform, addEdge_ofSlots hlabel hlabel', List.map_nil, List.append_nil]
      rfl
    · rw [some_mem_map_some, List.mem_singleton] at he'
      rw [he', List.map_nil, List.append_nil]
      exact ⟨hs, ht⟩
  | setLabel v label =>
    obtain ⟨old, hold⟩ := exists_label_of_holdsNode hadmits
    refine ⟨_, _, ?_, .relabel (alive_iff_exists.mpr ⟨old, hold⟩) label⟩
    rw [after, perform, setLabel_ofSlots hold]
    rfl
  | removeEdge i =>
    obtain ⟨e, he⟩ := hadmits
    refine ⟨_, _, ?_, .dropEdge i⟩
    rw [after, perform, removeEdge_ofSlots (edge_ofSlots_eq_ok_iff.mp he)]
    rfl
  | removeNode v =>
    obtain ⟨n, hn, -⟩ := incident_eq_ok_iff.mp hadmits
    obtain ⟨label, hlabel⟩ := exists_label_of_holdsNode (holdsNode_eq_true_iff.mpr ⟨n, hn⟩)
    have hfree : touching edges v = [] :=
      Except.ok.inj ((incident_ofSlots hlabel).symm.trans hadmits)
    refine ⟨_, _, ?_, .dropNode hfree⟩
    rw [after, perform, removeNode_ofSlots hlabel hfree]
    rfl
  | extend t keep =>
    exact ⟨_, _, congrArg Prod.fst (extend_ofSlots h t keep),
      .grow _ _ (joinsNodes_copiedEdges labels t keep)⟩

end Arena

/-! ### What the four keep -/

namespace SlotStep

variable (h : SlotStep labels edges labels' edges')

include h

/-- Edges join the slots of nodes. -/
theorem joinsNodes (hjoins : JoinsNodes labels edges) : JoinsNodes labels' edges' := by
  cases h with
  | grow newLabels newEdges hnew =>
    intro e he
    rcases List.mem_append.mp he with he | he
    · obtain ⟨hs, ht⟩ := hjoins e he
      rw [Arena.alive_append_left (Arena.lt_of_alive hs),
        Arena.alive_append_left (Arena.lt_of_alive ht)]
      exact ⟨hs, ht⟩
    · exact hnew e he
  | relabel hv label =>
    intro e he
    rw [Arena.alive_set_some hv, Arena.alive_set_some hv]
    exact hjoins e he
  | dropEdge i =>
    intro e he
    rcases List.mem_or_eq_of_mem_set he with he | he
    · exact hjoins e he
    · cases he
  | @dropNode v hfree =>
    intro e he
    obtain ⟨i, hi⟩ := List.mem_iff_getElem?.mp he
    have huntouched : e.touches v = false := Bool.eq_false_iff.mpr fun htouch => by
      have hmem : i ∈ touching edges v :=
        mem_touching.mpr ⟨e, Option.join_eq_some_iff.mpr hi, htouch⟩
      rw [hfree] at hmem
      exact List.not_mem_nil hmem
    rw [Edge.touches, Bool.or_eq_false_iff, beq_eq_false_iff_ne, beq_eq_false_iff_ne] at huntouched
    obtain ⟨hs, ht⟩ := hjoins e he
    simp [Arena.alive_set_none, hs, ht, huntouched.1.symm, huntouched.2.symm]

end SlotStep

end

end GraphGrammar
