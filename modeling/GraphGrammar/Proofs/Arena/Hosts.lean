import GraphGrammar.Proofs.Arena.Ranks
import GraphGrammar.Proofs.Arena.Slots

/-!
# Graphs in arenas

A graph that was copied into an arena fills its first slots. Copying a part of a further graph puts
the part behind it. When an arena is compacted, the slots that still hold nodes are numbered by
their ranks.

## Main definitions

* `GraphGrammar.GraphView.part` — the nodes that are kept, and the edges between them.
* `GraphGrammar.Arena.host` — the arena that holds a graph.

## Main results

* `GraphGrammar.Arena.extend_host` — what a further copy adds.
* `GraphGrammar.Arena.ofGraph_eq_host` — a copy of a whole graph.
* `GraphGrammar.Arena.labels_compact_ofSlots`, `edges_compact_ofSlots` — what remains.
-/

namespace GraphGrammar

/-! ### Parts of graphs -/

namespace GraphView

variable {t : GraphView}

theorem mem_edgeList_lt {e : Edge} (he : e ∈ t.edgeList) :
    e.source < t.nodeCount ∧ e.target < t.nodeCount ∧ e.source ≤ e.target := by
  simp only [edgeList, List.mem_flatMap, List.mem_range, List.mem_filterMap] at he
  obtain ⟨v, hv, i, hi, hie⟩ := he
  split at hie
  · next hle =>
    cases hie
    exact ⟨hv, (t.mem_lt hi).2, hle⟩
  · cases hie

/-- The nodes that are kept, numbered by their ranks, and the edges between them. -/
def part (t : GraphView) (keep : Nat → Bool) : Graph where
  labels := ((List.range t.nodeCount).filter keep).map t.label
  edges := (t.edgeList.filter fun e => keep e.source && keep e.target).map
    (Edge.mapNodes (rank keep))
  endpoints_lt e he := by
    obtain ⟨e', he', rfl⟩ := List.mem_map.mp he
    obtain ⟨hmem, hkeep⟩ := List.mem_filter.mp he'
    obtain ⟨hs, ht, -⟩ := mem_edgeList_lt hmem
    rw [Bool.and_eq_true] at hkeep
    rw [List.length_map, length_filter_range]
    exact ⟨rank_lt_rank hkeep.1 hs, rank_lt_rank hkeep.2 ht⟩

theorem nodeCount_part (t : GraphView) (keep : Nat → Bool) :
    (t.part keep).nodeCount = rank keep t.nodeCount := by
  rw [Graph.nodeCount, part, List.length_map, length_filter_range]

end GraphView

theorem Graph.eq_of_parts {g h : Graph} (hlabels : g.labels = h.labels)
    (hedges : g.edges = h.edges) :
    g = h := by
  cases g
  cases h
  cases hlabels
  cases hedges
  rfl

/-- Only which nodes are kept counts. -/
theorem GraphView.part_congr {t : GraphView} {keep keep' : Nat → Bool}
    (h : ∀ v < t.nodeCount, keep v = keep' v) : t.part keep = t.part keep' := by
  refine Graph.eq_of_parts ?_ ?_
  · exact congrArg (List.map t.label)
      (List.filter_congr fun v hv => h v (List.mem_range.mp hv))
  · simp only [part]
    rw [← List.filterMap_eq_map, ← List.filterMap_eq_map, List.filterMap_filter,
      List.filterMap_filter]
    refine List.filterMap_congr fun e he => ?_
    obtain ⟨hs, ht, -⟩ := mem_edgeList_lt he
    have hrank : ∀ v < t.nodeCount, rank keep v = rank keep' v := fun v hv =>
      rank_congr fun u hu => h u (Nat.lt_trans hu hv)
    simp only [h _ hs, h _ ht, Function.comp_apply, Edge.mapNodes, hrank _ hs, hrank _ ht]

theorem rank_eq_self {keep : Nat → Bool} {v : Nat} (h : ∀ u < v, keep u = true) :
    rank keep v = v := by
  rw [rank, List.countP_eq_length.mpr fun u hu => h u (List.mem_range.mp hu), List.length_range]

namespace Arena

/-! ### Copying -/

/-- The arena that holds a graph and nothing else. -/
def host (g : Graph) : Arena := ofSlots (g.labels.map some) (g.edges.map some)

theorem touching_eq_nil {edges : List (Option Edge)} {n v : Nat} (hv : n ≤ v)
    (h : ∀ e : Edge, some e ∈ edges → e.source < n ∧ e.target < n) : touching edges v = [] := by
  refine List.eq_nil_iff_forall_not_mem.mpr fun i hi => ?_
  obtain ⟨e, he, htouch⟩ := mem_touching.mp hi
  have := h e (List.mem_of_getElem? (Option.join_eq_some_iff.mp he))
  simp only [Edge.touches, Bool.or_eq_true, beq_iff_eq] at htouch
  omega

theorem foldl_addNode_ofSlots {edges : List (Option Edge)} (labels : List (Option String))
    (h : ∀ e : Edge, some e ∈ edges → e.source < labels.length ∧ e.target < labels.length)
    (new : List String) :
    new.foldl addNode (ofSlots labels edges) = ofSlots (labels ++ new.map some) edges := by
  induction new generalizing labels with
  | nil => simp
  | cons label new ih =>
    rw [List.foldl_cons, addNode_ofSlots (touching_eq_nil (Nat.le_refl _) h), ih]
    · simp
    · intro e he
      have := h e he
      rw [List.length_append, List.length_singleton]
      omega

/-- Edges that are appended one after the other, unless an endpoint has no slot. -/
theorem foldl_appendEdge_ofSlots (labels : List (Option String)) (edges : List (Option Edge))
    (slot : Nat → Option Nat) (new : List Edge) :
    new.foldl
      (fun a e =>
        match slot e.source, slot e.target with
        | some v, some w => a.appendEdge ⟨v, w, e.label⟩
        | _, _ => a)
      (ofSlots labels edges) =
    ofSlots labels (edges ++ (new.filterMap fun e =>
      (slot e.source).bind fun v => (slot e.target).map fun w => some ⟨v, w, e.label⟩)) := by
  induction new generalizing edges with
  | nil => simp
  | cons e new ih =>
    rw [List.foldl_cons, List.filterMap_cons]
    cases hs : slot e.source with
    | none => exact ih edges
    | some v =>
      cases ht : slot e.target with
      | none => exact ih edges
      | some w =>
        simp only [appendEdge_ofSlots, ih, Option.bind_some, Option.map_some, List.append_assoc,
          List.singleton_append]

theorem join_getElem?_map_some {α : Type} (l : List α) (i : Nat) :
    ((l.map some)[i]?).join = l[i]? := by
  rw [List.getElem?_map]
  cases l[i]? <;> rfl

theorem some_mem_map_some {α : Type} {l : List α} {a : α} : some a ∈ l.map some ↔ a ∈ l := by
  simp

/-- **A copy of a part of a graph** is put behind the graph that is there. -/
theorem extend_host (g : Graph) (t : GraphView) (keep : List Bool) :
    (host g).extend t keep =
      (host (g.append (t.part fun v => keep.getD v false)),
        (List.range t.nodeCount).map fun v =>
          if keep.getD v false then some (g.nodeCount + rank (fun v => keep.getD v false) v)
          else none) := by
  have hslots : numberKept (host g).nodes.length
      ((List.range t.nodeCount).map fun v => keep.getD v false) =
      (List.range t.nodeCount).map fun v =>
        if keep.getD v false then some (g.nodeCount + rank (fun v => keep.getD v false) v)
        else none := by
    refine List.ext_getElem? fun v => ?_
    rw [getElem?_numberKept, host, length_nodes_ofSlots, List.length_map, List.getElem?_map,
      List.getElem?_map]
    rcases Nat.lt_or_ge v t.nodeCount with hv | hv
    · rw [List.getElem?_range hv]
      simp only [Option.map_some, Graph.nodeCount]
      rw [rank_congr (v := v)]
      intro u hu
      simp [Nat.lt_trans hu hv]
    · rw [List.getElem?_eq_none (by simpa using hv)]
      rfl
  rw [extend]
  simp only [hslots, Prod.mk.injEq, and_true]
  have hlabels : ∀ e : Edge, some e ∈ g.edges.map some →
      e.source < (g.labels.map some).length ∧ e.target < (g.labels.map some).length := by
    intro e he
    rw [List.length_map]
    exact g.endpoints_lt e (some_mem_map_some.mp he)
  rw [host, foldl_addNode_ofSlots _ hlabels]
  refine (foldl_appendEdge_ofSlots _ _ (fun v => List.getD _ v none) _).trans ?_
  rw [host]
  congr 1
  · simp [Graph.append, GraphView.part]
  · simp only [Graph.append, GraphView.part, List.map_append, List.map_map]
    refine congrArg _ (Eq.symm ?_)
    rw [← List.filterMap_eq_map, List.filterMap_filter]
    refine List.filterMap_congr fun e he => ?_
    obtain ⟨hs, ht, -⟩ := GraphView.mem_edgeList_lt he
    simp only [List.getD_eq_getElem?_getD, List.getElem?_map, List.getElem?_range hs,
      List.getElem?_range ht, Option.map_some, Option.getD_some]
    cases keep[e.source]?.getD false <;> cases keep[e.target]?.getD false <;>
      simp [Edge.mapNodes, Nat.add_comm]

/-- A copy of the nodes that are kept, where flags tell which these are. -/
theorem extend_host_of_flags (g : Graph) {t : GraphView} {flags : List Bool} {keep : Nat → Bool}
    (h : ∀ v < t.nodeCount, flags.getD v false = keep v) : (host g).extend t flags =
      (host (g.append (t.part keep)), (List.range t.nodeCount).map fun v =>
        if keep v then some (g.nodeCount + rank keep v) else none) := by
  rw [extend_host, GraphView.part_congr h, Prod.mk.injEq]
  refine ⟨rfl, List.map_congr_left fun v hv => ?_⟩
  have hlt := List.mem_range.mp hv
  rw [h v hlt, rank_congr fun u hu => h u (Nat.lt_trans hu hlt)]

/-- **A copy of a whole graph** keeps its numbers. -/
theorem ofGraph_eq_host (t : GraphView) : ofGraph t = host t.toGraph := by
  have hkeep : ∀ v < t.nodeCount, (List.replicate t.nodeCount true).getD v false = true := by
    intro v hv
    simp [hv]
  have hrank : ∀ v, v ≤ t.nodeCount →
      rank (fun v => (List.replicate t.nodeCount true).getD v false) v = v := fun v hv =>
    rank_eq_self fun u hu => hkeep u (Nat.lt_of_lt_of_le hu hv)
  have hempty : empty = host Graph.empty := rfl
  rw [ofGraph, hempty, extend_host]
  refine congrArg host (Graph.eq_of_parts ?_ ?_)
  · simp only [Graph.append, Graph.empty, GraphView.part, GraphView.toGraph, List.nil_append]
    rw [List.filter_eq_self.mpr fun v hv => hkeep v (List.mem_range.mp hv)]
  · simp only [Graph.append, Graph.empty, GraphView.part, GraphView.toGraph, List.nil_append,
      List.map_map]
    rw [List.filter_eq_self.mpr]
    · refine (List.map_congr_left fun e he => ?_).trans (List.map_id _)
      obtain ⟨hs, ht, -⟩ := GraphView.mem_edgeList_lt he
      simp only [Function.comp_apply, Edge.mapNodes, hrank _ (Nat.le_of_lt hs),
        hrank _ (Nat.le_of_lt ht)]
      rfl
    · intro e he
      obtain ⟨hs, ht, -⟩ := GraphView.mem_edgeList_lt he
      rw [hkeep _ hs, hkeep _ ht]
      rfl

/-! ### Compaction -/

/-- Whether a slot holds a node. -/
def alive (labels : List (Option String)) (v : Nat) : Bool := (labels[v]?).join.isSome

theorem map_filterMap_id_mapIdx {α β : Type} {g : β → α} {f : Nat → α → β}
    (h : ∀ i a, g (f i a) = a) (l : List (Option α)) :
    ((l.mapIdx fun i a => a.map (f i)).filterMap id).map g = l.filterMap id := by
  induction l generalizing f with
  | nil => rfl
  | cons a l ih =>
    rw [List.mapIdx_cons]
    have := ih (f := fun i => f (i + 1)) fun i a => h (i + 1) a
    cases a with
    | none => exact this
    | some a => simpa [h] using this

theorem labels_compact_ofSlots (labels : List (Option String)) (edges : List (Option Edge)) :
    (ofSlots labels edges).compact.labels = labels.filterMap id :=
  map_filterMap_id_mapIdx (fun _ _ => rfl) labels

theorem join_getElem?_remap_ofSlots (labels : List (Option String)) (edges : List (Option Edge))
    (v : Nat) : ((ofSlots labels edges).remap[v]?).join =
      if alive labels v then some (rank (alive labels) v) else none := by
  have hflag : ∀ v, ((ofSlots labels edges).nodes.map Option.isSome)[v]?.getD false =
      alive labels v := by
    intro v
    rw [List.getElem?_map, getElem?_nodes_ofSlots, alive]
    rcases labels[v]? with _ | _ | label <;> rfl
  rw [remap, getElem?_numberKept]
  simp only [List.getD_eq_getElem?_getD, hflag, Nat.zero_add]
  rw [← hflag v]
  generalize ((ofSlots labels edges).nodes.map Option.isSome)[v]? = flag
  cases flag <;> rfl

theorem remapEdge_ofSlots {labels : List (Option String)} (edges : List (Option Edge)) {e : Edge}
    (hs : alive labels e.source = true) (ht : alive labels e.target = true) :
    (ofSlots labels edges).remapEdge e = some (e.mapNodes (rank (alive labels))) := by
  simp only [remapEdge, join_getElem?_remap_ofSlots, hs, ht, if_true, Option.bind_eq_bind,
    Option.bind_some, Edge.mapNodes]

theorem edges_compact_ofSlots {labels : List (Option String)} {edges : List (Option Edge)}
    (h : ∀ e : Edge, some e ∈ edges → alive labels e.source = true ∧ alive labels e.target = true) :
    (ofSlots labels edges).compact.edges =
      (present edges).map (Edge.mapNodes (rank (alive labels))) := by
  change (present edges).filterMap (ofSlots labels edges).remapEdge = _
  rw [← List.filterMap_eq_map']
  refine List.filterMap_congr fun e he => ?_
  obtain ⟨hs, ht⟩ := h e (mem_present.mp he)
  exact remapEdge_ofSlots edges hs ht

end Arena

end GraphGrammar
