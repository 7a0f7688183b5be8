import Mathlib.Data.List.Basic
import Mathlib.Data.List.Nodup
import GraphGrammar.Graph.Arena

/-!
# Arenas given by their slots

What the nodes of an arena know of the edges that touch them follows from the slots of the edges.
An arena is therefore given by two lists, the labels in the slots of nodes and the edges in the
slots of edges, and every operation on arenas is an operation on these lists.

## Main definitions

* `GraphGrammar.touching` — the slots of the edges that touch a node.
* `GraphGrammar.Arena.ofSlots` — the arena with given slots.

## Main results

* `GraphGrammar.Arena.addNode_ofSlots`, `appendEdge_ofSlots`, `setLabel_ofSlots`,
  `removeEdge_ofSlots`, `removeNode_ofSlots` — the operations on slots.
-/

namespace GraphGrammar

/-- The slots of the edges that satisfy a condition, in ascending order. -/
def slotsWhere (edges : List (Option Edge)) (condition : Edge → Bool) : List Nat :=
  (List.range edges.length).filter fun i => (edges[i]?).join.any condition

/-- The slots of the edges that touch a node, in ascending order. -/
def touching (edges : List (Option Edge)) (v : Nat) : List Nat := slotsWhere edges (·.touches v)

/-- The edges that are there, in the order of their slots. -/
def present (edges : List (Option Edge)) : List Edge := edges.filterMap id

variable {labels : List (Option String)} {edges : List (Option Edge)} {v i : Nat} {e : Edge}

theorem mem_present : e ∈ present edges ↔ some e ∈ edges := by
  simp [present]

theorem present_append (edges edges' : List (Option Edge)) :
    present (edges ++ edges') = present edges ++ present edges' := List.filterMap_append ..

theorem present_map_some (edges : List Edge) : present (edges.map some) = edges := by
  simp [present]

/-! ### Slots that satisfy a condition -/

theorem mem_slotsWhere {condition : Edge → Bool} :
    i ∈ slotsWhere edges condition ↔ ∃ e, (edges[i]?).join = some e ∧ condition e = true := by
  rw [slotsWhere, List.mem_filter, List.mem_range, Option.any_eq_true]
  refine and_iff_right_of_imp fun ⟨e, he, _⟩ => ?_
  exact (List.getElem?_eq_some_iff.mp (Option.join_eq_some_iff.mp he)).1

theorem nodup_slotsWhere (edges : List (Option Edge)) (condition : Edge → Bool) :
    (slotsWhere edges condition).Nodup := List.nodup_range.filter _

theorem slotsWhere_append_singleton (edges : List (Option Edge)) (e : Edge)
    (condition : Edge → Bool) : slotsWhere (edges ++ [some e]) condition =
      slotsWhere edges condition ++ if condition e then [edges.length] else [] := by
  rw [slotsWhere, List.length_append, List.length_singleton, List.range_succ, List.filter_append]
  congr 1
  · refine List.filter_congr fun i hi => ?_
    rw [List.getElem?_append_left (List.mem_range.mp hi)]
  · simp [List.filter_cons]

theorem slotsWhere_set_none (edges : List (Option Edge)) (i : Nat) (condition : Edge → Bool) :
    slotsWhere (edges.set i none) condition = (slotsWhere edges condition).erase i := by
  rw [(nodup_slotsWhere edges condition).erase_eq_filter, slotsWhere, slotsWhere, List.length_set,
    List.filter_filter]
  refine List.filter_congr fun j hj => ?_
  rw [List.getElem?_set]
  by_cases hij : i = j
  · subst hij
    simp [List.mem_range.mp hj]
  · simp [hij, Ne.symm hij]

theorem mem_touching :
    i ∈ touching edges v ↔ ∃ e, (edges[i]?).join = some e ∧ e.touches v = true := mem_slotsWhere

theorem touching_append_singleton (edges : List (Option Edge)) (e : Edge) (v : Nat) :
    touching (edges ++ [some e]) v =
      touching edges v ++ if e.touches v then [edges.length] else [] :=
  slotsWhere_append_singleton edges e _

theorem touching_set_none (edges : List (Option Edge)) (i v : Nat) :
    touching (edges.set i none) v = (touching edges v).erase i := slotsWhere_set_none edges i _

/-! ### The arena -/

namespace Arena

/-- The arena with given slots. -/
def ofSlots (labels : List (Option String)) (edges : List (Option Edge)) : Arena :=
  ⟨labels.mapIdx fun v label => label.map fun label => ⟨label, touching edges v⟩, edges⟩

@[simp]
theorem edges_ofSlots (labels : List (Option String)) (edges : List (Option Edge)) :
    (ofSlots labels edges).edges = edges := rfl

theorem getElem?_nodes_ofSlots (labels : List (Option String)) (edges : List (Option Edge))
    (v : Nat) : (ofSlots labels edges).nodes[v]? =
      (labels[v]?).map (Option.map fun label => ArenaNode.mk label (touching edges v)) := by
  rw [ofSlots, List.getElem?_mapIdx]

theorem length_nodes_ofSlots (labels : List (Option String)) (edges : List (Option Edge)) :
    (ofSlots labels edges).nodes.length = labels.length := List.length_mapIdx

/-- An arena is recognised by its slots. -/
theorem eq_ofSlots {a : Arena} (hnodes : ∀ v, a.nodes[v]? =
    (labels[v]?).map (Option.map fun label => ArenaNode.mk label (touching edges v)))
    (hedges : a.edges = edges) : a = ofSlots labels edges := by
  obtain ⟨nodes, edges'⟩ := a
  cases hedges
  rw [Arena.mk.injEq]
  exact ⟨List.ext_getElem? fun v => (hnodes v).trans (getElem?_nodes_ofSlots _ _ _).symm, rfl⟩

/-! ### Reading -/

theorem node_ofSlots {label : String} (h : (labels[v]?).join = some label) :
    (ofSlots labels edges).node v = .ok ⟨label, touching edges v⟩ := by
  rw [node, getElem?_nodes_ofSlots, Option.join_eq_some_iff.mp h]
  rfl

theorem edge_ofSlots (h : (edges[i]?).join = some e) : (ofSlots labels edges).edge i = .ok e := by
  rw [edge, edges_ofSlots, h]

theorem label_ofSlots {label : String} (h : (labels[v]?).join = some label) :
    (ofSlots labels edges).label v = .ok label := by
  rw [Arena.label, node_ofSlots h]
  rfl

theorem incident_ofSlots {label : String} (h : (labels[v]?).join = some label) :
    (ofSlots labels edges).incident v = .ok (touching edges v) := by
  rw [incident, node_ofSlots h]
  rfl

theorem filter_edgeSatisfies (labels : List (Option String)) (edges : List (Option Edge))
    (condition condition' : Edge → Bool) :
    (slotsWhere edges condition).filter ((ofSlots labels edges).edgeSatisfies condition') =
      slotsWhere edges fun e => condition e && condition' e := by
  rw [slotsWhere, slotsWhere, List.filter_filter]
  refine List.filter_congr fun i _ => ?_
  rw [edgeSatisfies, edges_ofSlots, Bool.and_comm]
  cases (edges[i]?).join <;> rfl

theorem selfLoops_ofSlots {label : String} (h : (labels[v]?).join = some label) :
    (ofSlots labels edges).selfLoops v =
      .ok (slotsWhere edges fun e => e.touches v && e.isSelfLoop) := by
  rw [selfLoops, node_ofSlots h, ← filter_edgeSatisfies labels]
  rfl

theorem slotsBetween_ofSlots {w : Nat} {label label' : String}
    (hv : (labels[v]?).join = some label) (hw : (labels[w]?).join = some label') :
    (ofSlots labels edges).slotsBetween v w =
      .ok (slotsWhere edges fun e => e.connects v w) := by
  have hconnects : (fun e : Edge => e.connects v w) =
      fun e => e.touches v && e.connects v w := by
    funext e
    rw [Edge.connects, Edge.touches]
    cases e.source == v <;> cases e.target == v <;> simp
  have hfilter : (touching edges v).filter
      ((ofSlots labels edges).edgeSatisfies fun e => e.connects v w) =
      slotsWhere edges fun e => e.connects v w := by
    rw [touching, filter_edgeSatisfies, ← hconnects]
  rw [slotsBetween, node_ofSlots hv, node_ofSlots hw]
  exact congrArg Except.ok hfilter

/-! ### Changing -/

theorem addNode_ofSlots (h : touching edges labels.length = []) (label : String) :
    (ofSlots labels edges).addNode label = ofSlots (labels ++ [some label]) edges := by
  rw [addNode, ofSlots, ofSlots, List.mapIdx_append]
  simp [h]

theorem getElem?_modifyEnds (nodes : List (Option ArenaNode)) (e : Edge)
    (f : ArenaNode → ArenaNode) (v : Nat) : (modifyEnds nodes e f)[v]? =
      if e.touches v then (nodes[v]?).map (Option.map f) else nodes[v]? := by
  rw [modifyEnds]
  simp only [modifyNode, Edge.touches]
  by_cases hloop : e.source = e.target
  · rw [if_pos hloop, List.getElem?_modify]
    by_cases hs : e.source = v
    · simp [hs]
    · simp [hs, ← hloop]
  · rw [if_neg hloop, List.getElem?_modify, List.getElem?_modify]
    by_cases hs : e.source = v
    · have ht : e.target ≠ v := fun ht => hloop (hs.trans ht.symm)
      simp [hs, ht]
    · by_cases ht : e.target = v <;> simp [hs, ht]

theorem appendEdge_ofSlots (labels : List (Option String)) (edges : List (Option Edge))
    (e : Edge) : (ofSlots labels edges).appendEdge e = ofSlots labels (edges ++ [some e]) := by
  refine eq_ofSlots (fun v => ?_) rfl
  rw [appendEdge, getElem?_modifyEnds, getElem?_nodes_ofSlots, touching_append_singleton,
    edges_ofSlots]
  by_cases h : e.touches v = true
  · simp [h, Function.comp_def, attach]
  · simp [h]

theorem addEdge_ofSlots {label label' : String} (hs : (labels[e.source]?).join = some label)
    (ht : (labels[e.target]?).join = some label') :
    (ofSlots labels edges).addEdge e = .ok (ofSlots labels (edges ++ [some e])) := by
  rw [addEdge, node_ofSlots hs, node_ofSlots ht, ← appendEdge_ofSlots]
  rfl

theorem setLabel_ofSlots {old : String} (h : (labels[v]?).join = some old) (label : String) :
    (ofSlots labels edges).setLabel v label =
      .ok (ofSlots (labels.set v (some label)) edges) := by
  rw [setLabel, node_ofSlots h]
  refine congrArg Except.ok (eq_ofSlots (fun w => ?_) rfl)
  rw [modifyNode, List.getElem?_modify, getElem?_nodes_ofSlots, List.getElem?_set]
  by_cases hw : v = w
  · subst hw
    have hv := Option.join_eq_some_iff.mp h
    rw [hv, if_pos (List.getElem?_eq_some_iff.mp hv).1]
    simp
  · simp [hw]

theorem removeEdge_ofSlots (h : (edges[i]?).join = some e) :
    (ofSlots labels edges).removeEdge i = .ok (ofSlots labels (edges.set i none)) := by
  rw [removeEdge, edge_ofSlots h]
  refine congrArg Except.ok (eq_ofSlots (fun v => ?_) rfl)
  rw [getElem?_modifyEnds, getElem?_nodes_ofSlots, touching_set_none]
  by_cases hv : e.touches v = true
  · simp [hv, Function.comp_def, detach]
  · have hmem : i ∉ touching edges v := fun hi => by
      obtain ⟨e', he', htouch⟩ := mem_touching.mp hi
      rw [h] at he'
      cases he'
      exact hv htouch
    simp [hv, List.erase_of_not_mem hmem]

theorem removeNode_ofSlots {label : String} (h : (labels[v]?).join = some label)
    (hfree : touching edges v = []) :
    (ofSlots labels edges).removeNode v = .ok (ofSlots (labels.set v none) edges) := by
  rw [removeNode, node_ofSlots h]
  refine (if_pos (by rw [hfree]; rfl)).trans ?_
  refine congrArg Except.ok (eq_ofSlots (fun w => ?_) rfl)
  rw [List.getElem?_set, length_nodes_ofSlots, getElem?_nodes_ofSlots, List.getElem?_set]
  by_cases hw : v = w
  · subst hw
    simp
  · simp [hw]

end Arena

end GraphGrammar
