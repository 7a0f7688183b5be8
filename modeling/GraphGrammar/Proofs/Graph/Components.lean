import Mathlib.Logic.Relation
import GraphGrammar.Graph.Components
import GraphGrammar.Proofs.Graph.DisjointSets
import GraphGrammar.Proofs.Graph.Isomorphism

/-!
# Connected components

Two nodes are linked when edges lead from the one to the other. Both ways of finding components find
the classes of linked nodes: uniting the endpoints of all edges gives linked nodes, and only these,
the same number, and walking through the graph lists every class once.

## Main definitions

* `GraphGrammar.GraphView.Linked` — edges lead from one node to another.
* `GraphGrammar.GraphView.Separates` — lists of linked nodes between which there is no edge.

## Main results

* `GraphGrammar.GraphView.componentNumbers_eq_iff` — the components found by uniting endpoints.
* `GraphGrammar.GraphView.separates_sweptComponents` — the components found by walking.
-/

namespace GraphGrammar

namespace GraphView

variable {g : GraphView} {u v w : Nat}

/-- Edges lead from one node to another. -/
def Linked (g : GraphView) : Nat → Nat → Prop :=
  Relation.ReflTransGen fun u v => g.hasEdge u v = true

theorem Linked.refl (g : GraphView) (v : Nat) : g.Linked v v := Relation.ReflTransGen.refl

theorem Linked.of_hasEdge (h : g.hasEdge u v = true) : g.Linked u v :=
  Relation.ReflTransGen.single h

theorem Linked.trans (huv : g.Linked u v) (hvw : g.Linked v w) : g.Linked u w :=
  Relation.ReflTransGen.trans huv hvw

theorem Linked.symm (h : g.Linked u v) : g.Linked v u := by
  induction h with
  | refl => exact Linked.refl g u
  | tail _ hedge ih =>
    rw [g.hasEdge_comm] at hedge
    exact (Linked.of_hasEdge hedge).trans ih

theorem lt_of_hasEdge (h : g.hasEdge u v = true) : u < g.nodeCount ∧ v < g.nodeCount := by
  obtain ⟨e, he, hnode⟩ := List.any_eq_true.mp h
  obtain ⟨hu, hv⟩ := g.mem_lt he
  exact ⟨hu, beq_iff_eq.mp hnode ▸ hv⟩

/-- Only nodes are linked with others. -/
theorem Linked.lt (h : g.Linked u v) (hu : u < g.nodeCount) : v < g.nodeCount := by
  induction h with
  | refl => exact hu
  | tail _ hedge _ => exact (lt_of_hasEdge hedge).2

section

variable {f : Nat → Nat} {a b : GraphView}

/-- Maps that preserve edges send linked nodes to linked nodes. -/
theorem Linked.map (hf : ∀ {u v : Nat}, a.hasEdge u v = true → b.hasEdge (f u) (f v) = true)
    (h : a.Linked u v) : b.Linked (f u) (f v) := by
  induction h with
  | refl => exact Linked.refl b _
  | tail _ hedge ih => exact ih.trans (Linked.of_hasEdge (hf hedge))

theorem IsIso.linked (hf : IsIso f a b) (h : a.Linked u v) : b.Linked (f u) (f v) := by
  refine h.map fun hedge => ?_
  obtain ⟨hu, hv⟩ := lt_of_hasEdge hedge
  rwa [hf.hasEdge_eq hu hv]

theorem IsIso.linked_iff (hf : IsIso f a b) (hu : u < a.nodeCount) (hv : v < a.nodeCount) :
    b.Linked (f u) (f v) ↔ a.Linked u v := by
  refine ⟨fun h => ?_, hf.linked⟩
  obtain ⟨inverse, hinverse, hleft, -⟩ := hf.exists_symm
  have := hinverse.linked h
  rwa [hleft u hu, hleft v hv] at this

end

/-! ### By uniting endpoints -/

/-- The endpoints of the edges, every edge between two nodes listed at both of them. -/
def endpointPairs (g : GraphView) : List (Nat × Nat) :=
  (List.range g.nodeCount).flatMap fun v => (g.incident v).map fun e => (v, e.node)

theorem mem_endpointPairs : (u, v) ∈ g.endpointPairs ↔ g.hasEdge u v = true := by
  simp only [endpointPairs, List.mem_flatMap, List.mem_range, List.mem_map, Prod.mk.injEq, hasEdge,
    List.any_eq_true, beq_iff_eq]
  constructor
  · rintro ⟨_, -, e, he, rfl, rfl⟩
    exact ⟨e, he, rfl⟩
  · rintro ⟨e, he, rfl⟩
    exact ⟨u, (g.mem_lt he).1, e, he, rfl, rfl⟩

theorem componentForest_eq (g : GraphView) :
    g.componentForest = (DisjointSets.singletons g.nodeCount).unionAll g.endpointPairs := by
  rw [componentForest, DisjointSets.unionAll, endpointPairs, List.foldl_flatMap]
  simp only [List.foldl_map]

/-- **Linked nodes** have the same root, and only these. -/
theorem root_componentForest_eq_iff :
    g.componentForest.root u = g.componentForest.root v ↔ g.Linked u v := by
  rw [componentForest_eq, DisjointSets.root_unionAll_singletons_iff fun pair hpair =>
    lt_of_hasEdge (mem_endpointPairs.mp hpair)]
  constructor
  · intro h
    induction h with
    | rel u v h => exact Linked.of_hasEdge (mem_endpointPairs.mp h)
    | refl u => exact Linked.refl g u
    | symm u v _ ih => exact ih.symm
    | trans u v w _ _ ih ih' => exact ih.trans ih'
  · intro h
    induction h with
    | refl => exact .refl _
    | tail _ hedge ih => exact ih.trans _ _ _ (.rel _ _ (mem_endpointPairs.mpr hedge))

instance (g : GraphView) : DecidableRel g.Linked := fun u v =>
  decidable_of_iff (g.componentForest.root u = g.componentForest.root v) root_componentForest_eq_iff

/-- **The numbers of components** are the same for linked nodes, and only for these. -/
theorem componentNumbers_eq_iff (hu : u < g.nodeCount) (hv : v < g.nodeCount) :
    g.componentNumbers.1[u]? = g.componentNumbers.1[v]? ↔ g.Linked u v := by
  have hget : ∀ {v}, v < g.nodeCount → g.componentNumbers.1[v]? =
      some ((g.componentRoots g.componentForest).idxOf (g.componentForest.root v)) := by
    intro v hv
    rw [componentNumbers]
    simp only [List.getElem?_map, List.getElem?_range hv, Option.map_some]
  have hmem : ∀ {v}, v < g.nodeCount →
      g.componentForest.root v ∈ g.componentRoots g.componentForest := by
    intro v hv
    refine List.mem_filter.mpr ⟨List.mem_range.mpr ?_, ?_⟩
    · exact Nat.lt_of_le_of_lt (DisjointSets.root_le _ v) hv
    · rw [beq_iff_eq, DisjointSets.root_root]
  rw [hget hu, hget hv, Option.some.injEq, List.idxOf_inj (hmem hu), root_componentForest_eq_iff]

/-! ### By walking -/

theorem besides_append_apart_perm (g : GraphView) (v : Nat) (l : List Nat) :
    (g.besides v l ++ g.apart v l).Perm l :=
  List.filter_append_perm (fun w => g.hasEdge v w) l

/-- Everything is visited or not. -/
theorem sweep_perm (g : GraphView) (unseen queue : List Nat) :
    ((g.sweep unseen queue).1 ++ (g.sweep unseen queue).2).Perm (queue ++ unseen) := by
  fun_induction sweep g unseen queue with
  | case1 unseen => exact List.Perm.refl _
  | case2 unseen v queue found ih =>
    refine List.Perm.cons v (ih.trans ?_)
    rw [List.append_assoc]
    exact List.Perm.append_left _ (g.besides_append_apart_perm v unseen)

/-- What is visited is linked with something from which the walk started. -/
theorem linked_of_mem_sweep {unseen queue : List Nat} (hv : v ∈ (g.sweep unseen queue).1) :
    ∃ u ∈ queue, g.Linked u v := by
  fun_induction sweep g unseen queue with
  | case1 unseen => exact absurd hv List.not_mem_nil
  | case2 unseen w queue found ih =>
    rcases List.mem_cons.mp hv with rfl | hv
    · exact ⟨v, List.mem_cons_self .., Linked.refl g v⟩
    · obtain ⟨u, hu, hlinked⟩ := ih hv
      rcases List.mem_append.mp hu with hu | hu
      · exact ⟨u, List.mem_cons_of_mem _ hu, hlinked⟩
      · have hedge := (List.mem_filter.mp hu).2
        exact ⟨w, List.mem_cons_self .., (Linked.of_hasEdge hedge).trans hlinked⟩

theorem mem_of_mem_sweep {unseen queue : List Nat} (hv : v ∈ (g.sweep unseen queue).2) :
    v ∈ unseen := by
  fun_induction sweep g unseen queue with
  | case1 unseen => exact hv
  | case2 unseen w queue found ih => exact List.mem_of_mem_filter (ih hv)

/-- No edge leads from what is visited to what is not. -/
theorem hasEdge_sweep {unseen queue : List Nat} (hu : u ∈ (g.sweep unseen queue).1)
    (hv : v ∈ (g.sweep unseen queue).2) : g.hasEdge u v = false := by
  fun_induction sweep g unseen queue with
  | case1 unseen => exact absurd hu List.not_mem_nil
  | case2 unseen w queue found ih =>
    rcases List.mem_cons.mp hu with rfl | hu
    · simpa using (List.mem_filter.mp (mem_of_mem_sweep hv)).2
    · exact ih hu hv

/-- Lists of linked nodes between which there is no edge. -/
structure Separates (g : GraphView) (components : List (List Nat)) (nodes : List Nat) : Prop where
  /-- Every node is in one list. -/
  perm : components.flatten.Perm nodes
  /-- No list is empty. -/
  ne_nil : ∀ c ∈ components, c ≠ []
  /-- The nodes of a list are linked. -/
  linked : ∀ c ∈ components, ∀ u ∈ c, ∀ v ∈ c, g.Linked u v
  /-- No edge leads from one list to another. -/
  hasEdge : components.Pairwise fun c c' => ∀ u ∈ c, ∀ v ∈ c', g.hasEdge u v = false

/-- **Walking** lists the classes of linked nodes. -/
theorem separates_sweepAll (g : GraphView) (unseen : List Nat) :
    g.Separates (g.sweepAll unseen) unseen := by
  fun_induction sweepAll g unseen with
  | case1 => exact ⟨List.Perm.refl _, fun c hc => absurd hc List.not_mem_nil,
      fun c hc => absurd hc List.not_mem_nil, List.Pairwise.nil⟩
  | case2 v unseen found ih =>
    have hperm := g.sweep_perm unseen [v]
    have hvisited : ∀ u ∈ found.1.mergeSort, u ∈ found.1 := fun u hu => List.mem_mergeSort.mp hu
    refine ⟨?_, ?_, ?_, ?_⟩
    · rw [List.flatten_cons]
      exact ((List.mergeSort_perm _ _).append ih.perm).trans hperm
    · refine List.forall_mem_cons.mpr ⟨fun hnil => ?_, ih.ne_nil⟩
      have hv : v ∈ found.1.mergeSort := by
        simp only [found, List.mem_mergeSort]
        rw [sweep]
        exact List.mem_cons_self ..
      rw [hnil] at hv
      exact absurd hv List.not_mem_nil
    · refine List.forall_mem_cons.mpr ⟨fun u hu w hw => ?_, ih.linked⟩
      have hfrom : ∀ u ∈ found.1.mergeSort, g.Linked v u := by
        intro u hu
        obtain ⟨v', hv', hlinked⟩ := linked_of_mem_sweep (hvisited u hu)
        exact List.mem_singleton.mp hv' ▸ hlinked
      exact (hfrom u hu).symm.trans (hfrom w hw)
    · refine List.pairwise_cons.mpr ⟨fun c hc u hu w hw => ?_, ih.hasEdge⟩
      exact hasEdge_sweep (hvisited u hu)
        (ih.perm.mem_iff.mp (List.mem_flatten.mpr ⟨c, hc, hw⟩))

theorem separates_sweptComponents (g : GraphView) :
    g.Separates g.sweptComponents (List.range g.nodeCount) := g.separates_sweepAll _

/-! ### The class of a node -/

/-- The place of the first list that has a node. -/
def classOf (components : List (List Nat)) (v : Nat) : Nat :=
  components.findIdx fun c => decide (v ∈ c)

namespace Separates

variable {components : List (List Nat)} (h : g.Separates components (List.range g.nodeCount))

include h

theorem exists_mem (hv : v < g.nodeCount) : ∃ c, components[classOf components v]? = some c ∧
    v ∈ c := by
  obtain ⟨c, hc, hvc⟩ := List.mem_flatten.mp (h.perm.mem_iff.mpr (List.mem_range.mpr hv))
  have hlt := List.findIdx_lt_length_of_exists (p := fun c => decide (v ∈ c))
    ⟨c, hc, decide_eq_true hvc⟩
  exact ⟨_, List.getElem?_eq_getElem hlt, of_decide_eq_true (List.findIdx_getElem (w := hlt))⟩

theorem classOf_eq_of_mem {k : Nat} {c : List Nat} (hk : components[k]? = some c) (hv : v ∈ c) :
    classOf components v = k := by
  obtain ⟨hlt, rfl⟩ := List.getElem?_eq_some_iff.mp hk
  refine (List.findIdx_eq hlt).mpr ⟨decide_eq_true hv, fun j hj => decide_eq_false fun hvj => ?_⟩
  have hnodup := (List.nodup_flatten.mp (h.perm.nodup_iff.mpr List.nodup_range)).2
  exact List.pairwise_iff_getElem.mp hnodup j k _ hlt hj hvj hv

theorem lt_of_mem {c : List Nat} (hc : c ∈ components) (hv : v ∈ c) : v < g.nodeCount :=
  List.mem_range.mp (h.perm.mem_iff.mp (List.mem_flatten.mpr ⟨c, hc, hv⟩))

/-- A list has all nodes that are linked with one that it has. -/
theorem mem_of_linked {c : List Nat} (hc : c ∈ components) (hu : u ∈ c) (huv : g.Linked u v) :
    v ∈ c := by
  induction huv with
  | refl => exact hu
  | tail _ hedge ih =>
    obtain ⟨c', hc', hv⟩ := h.exists_mem (lt_of_hasEdge hedge).2
    have hmem := List.mem_of_getElem? hc'
    by_contra hout
    have hne : c ≠ c' := fun heq => hout (heq ▸ hv)
    have : Std.Symm fun c c' : List Nat => ∀ u ∈ c, ∀ v ∈ c', g.hasEdge u v = false :=
      ⟨fun _ _ hapart u hu v hv => (g.hasEdge_comm u v).trans (hapart v hv u hu)⟩
    have hapart := h.hasEdge.forall hc hmem hne
    rw [hapart _ ih _ hv] at hedge
    exact Bool.false_ne_true hedge

/-- **Two nodes are in one list** exactly when they are linked. -/
theorem classOf_eq_iff (hu : u < g.nodeCount) (hv : v < g.nodeCount) :
    classOf components u = classOf components v ↔ g.Linked u v := by
  constructor
  · intro heq
    obtain ⟨c, hc, huc⟩ := h.exists_mem hu
    obtain ⟨c', hc', hvc⟩ := h.exists_mem hv
    rw [← heq, hc, Option.some.injEq] at hc'
    exact h.linked c (List.mem_of_getElem? hc) u huc v (hc' ▸ hvc)
  · intro hlinked
    refine Nat.le_antisymm (List.findIdx_le_findIdx fun c hc hvc => ?_)
      (List.findIdx_le_findIdx fun c hc huc => ?_)
    · exact decide_eq_true (h.mem_of_linked hc (of_decide_eq_true hvc) hlinked.symm)
    · exact decide_eq_true (h.mem_of_linked hc (of_decide_eq_true huc) hlinked)

end Separates

end GraphView

end GraphGrammar
