import GraphGrammar.Proofs.Arena.Edits

/-!
# Arenas that are reached by changes

An arena that begins empty or as a copy of a graph, and is changed any number of times, is given by
slots for nodes and edges, where every edge joins the slots of two nodes. Compaction of such an
arena drops no edge.

## Main definitions

* `GraphGrammar.Arena.Reached` — the arenas to which changes lead.
* `GraphGrammar.Arena.CompactsWhole` — that compaction drops nothing.

## Main results

* `GraphGrammar.Arena.compactsWhole_ofSlots` — compaction where edges join the slots of nodes.
* `GraphGrammar.Arena.Reached.exists_slots` — reached arenas are given by slots.
-/

namespace GraphGrammar

namespace Arena

/-- The arenas that are reached from the empty one and from copies of graphs. -/
inductive Reached : Arena → Prop
  /-- The empty arena. -/
  | nothing : Reached empty
  /-- A copy of a graph. -/
  | copy (t : GraphView) : Reached (ofGraph t)
  /-- One more change. -/
  | step {a : Arena} (h : Reached a) (edit : Edit) : Reached (a.after edit)

/-- Compaction numbers the nodes from zero in the order of their slots, and keeps all of them with
their labels, and all edges in the order of their slots. -/
structure CompactsWhole (a : Arena) : Prop where
  /-- Exactly the nodes get numbers. -/
  isSome_remap : ∀ v, (a.remap[v]?).join.isSome = a.holdsNode v
  /-- In the order of the slots, the numbers are those from zero on. -/
  numbers_eq : a.remap.filterMap id = List.range a.aliveNodes
  /-- There are as many nodes. -/
  nodeCount_eq : a.compact.nodeCount = a.aliveNodes
  /-- Nodes keep their labels. -/
  label_eq : ∀ v k, (a.remap[v]?).join = some k →
    ∃ label, a.label v = .ok label ∧ a.compact.labels[k]? = some label
  /-- There are as many edges. -/
  edgeCount_eq : a.compact.edges.length = a.aliveEdges
  /-- The edges are those that are there, in their order, each with its endpoints renumbered. -/
  edges_eq : a.compact.edges.map some = (present a.edges).map a.remapEdge

variable {a : Arena} {labels : List (Option String)} {edges : List (Option Edge)}

/-! ### Compaction -/

/-- The numbers that are given are counted on from the start. -/
theorem filterMap_id_numberKept (start : Nat) (flags : List Bool) :
    (numberKept start flags).filterMap id = List.range' start (flags.count true) := by
  induction flags generalizing start with
  | nil => rfl
  | cons flag flags ih =>
    cases flag with
    | true =>
      rw [List.count_cons_self, List.range'_succ, ← ih]
      rfl
    | false =>
      rw [List.count_cons_of_ne (by decide), ← ih]
      rfl

/-- What has a number stands at this number in the list of what is there. -/
theorem getElem?_of_getElem?_numberKept {α : Type} {l : List (Option α)} {start v k : Nat}
    (h : (numberKept start (l.map Option.isSome))[v]? = some (some k)) :
    ∃ x, l[v]? = some (some x) ∧ (l.filterMap id)[k - start]? = some x := by
  induction l generalizing start v with
  | nil => simp [numberKept] at h
  | cons x l ih =>
    cases x with
    | none =>
      cases v with
      | zero => simp [numberKept] at h
      | succ v => exact ih h
    | some x =>
      cases v with
      | zero =>
        obtain rfl : start = k := by simpa [numberKept] using h
        exact ⟨x, rfl, by simp⟩
      | succ v =>
        obtain ⟨y, hy, hget⟩ := @ih (start + 1) v h
        have hle := (bounds_of_mem_numberKept (List.mem_of_getElem? (i := v) h)).1
        refine ⟨y, hy, ?_⟩
        rw [← hget, show k - start = k - (start + 1) + 1 by omega]
        rfl

theorem count_isSome {α : Type} (l : List (Option α)) :
    (l.map Option.isSome).count true = l.countP Option.isSome := by
  rw [List.count_eq_countP, List.countP_map]
  exact List.countP_congr fun x _ => by simp

/-- **Compaction** drops no edge where edges join the slots of nodes. -/
theorem compactsWhole_ofSlots (h : JoinsNodes labels edges) :
    (ofSlots labels edges).CompactsWhole where
  isSome_remap v := by
    rw [join_getElem?_remap_ofSlots, holdsNode_ofSlots]
    cases alive labels v <;> rfl
  numbers_eq := by
    rw [remap, filterMap_id_numberKept, count_isSome, aliveNodes, List.range_eq_range']
  nodeCount_eq := by
    rw [Graph.nodeCount, compact, List.length_map, List.length_filterMap_eq_countP]
    rfl
  label_eq v k hk := by
    obtain ⟨n, hn, hget⟩ := getElem?_of_getElem?_numberKept (Option.join_eq_some_iff.mp hk)
    refine ⟨n.label, ?_, ?_⟩
    · rw [Arena.label, node, hn]
      rfl
    · rw [compact, List.getElem?_map, ← Nat.sub_zero k, hget]
      rfl
  edgeCount_eq := by
    rw [edges_compact_ofSlots h, List.length_map, present, List.length_filterMap_eq_countP]
    rfl
  edges_eq := by
    rw [edges_compact_ofSlots h, List.map_map, edges_ofSlots]
    refine List.map_congr_left fun e he => ?_
    obtain ⟨hs, ht⟩ := h e (mem_present.mp he)
    exact (remapEdge_ofSlots edges hs ht).symm

/-! ### Reached arenas -/

/-- **Reached arenas** are given by slots, and their edges join the slots of nodes. -/
theorem Reached.exists_slots (h : a.Reached) :
    ∃ labels edges, JoinsNodes labels edges ∧ a = ofSlots labels edges := by
  induction h with
  | nothing => exact ⟨[], [], joinsNodes_nil _, rfl⟩
  | copy t =>
    refine ⟨_, _, fun e he => ?_, ofGraph_eq_host t⟩
    obtain ⟨hs, ht⟩ := t.toGraph.endpoints_lt e (some_mem_map_some.mp he)
    rw [alive, alive, join_getElem?_map_some, join_getElem?_map_some, List.getElem?_eq_getElem hs,
      List.getElem?_eq_getElem ht]
    exact ⟨rfl, rfl⟩
  | @step a _ edit ih =>
    obtain ⟨labels, edges, hjoins, rfl⟩ := ih
    by_cases hadmits : (ofSlots labels edges).Admits edit
    · obtain ⟨labels', edges', heq, hstep⟩ := exists_slotStep hjoins hadmits
      exact ⟨labels', edges', hstep.joinsNodes hjoins, heq⟩
    · exact ⟨labels, edges, hjoins, (after_of_not_admits hadmits).2⟩

end Arena

end GraphGrammar
