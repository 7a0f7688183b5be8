import GraphGrammar.Graph.Composite
import GraphGrammar.Proofs.Graph.Components

/-!
# Regions that no edge leaves

A graph lies in another one when its nodes can be found there with their labels and with all edges
around them. No edge leads out of the nodes so found. Isomorphic graphs lie in each other, and two
graphs lie in their disjoint union. Nodes that are linked lie on one side of a disjoint union.

## Main definitions

* `GraphGrammar.GraphView.LiesIn` — a map that finds a graph in another one.
* `GraphGrammar.GraphView.IsConnected` — a graph with one component.

## Main results

* `GraphGrammar.GraphView.liesIn_disjointUnion_left`, `liesIn_disjointUnion_right` — both sides of a
  disjoint union.
* `GraphGrammar.GraphView.Linked.lt_iff_of_disjointUnion` — linked nodes are on one side.
-/

namespace GraphGrammar

namespace GraphView

/-- A map that sends the nodes of a graph to nodes of another one, one to one, with their labels and
with all edges around them. -/
structure LiesIn (f : Nat → Nat) (a b : GraphView) : Prop where
  /-- Nodes are sent to nodes. -/
  lt : ∀ {v : Nat}, v < a.nodeCount → f v < b.nodeCount
  /-- Distinct nodes are sent to distinct nodes. -/
  inj : ∀ {u v : Nat}, u < a.nodeCount → v < a.nodeCount → f u = f v → u = v
  /-- Labels are preserved. -/
  label_eq : ∀ {v : Nat}, v < a.nodeCount → b.label (f v) = a.label v
  /-- The edges around the image of a node are those around the node. -/
  incident_perm : ∀ {v : Nat}, v < a.nodeCount →
    ((a.incident v).map fun e => (⟨f e.node, e.label⟩ : Incidence)).Perm (b.incident (f v))

/-- An isomorphic graph. -/
theorem IsIso.liesIn {f : Nat → Nat} {a b : GraphView} (h : IsIso f a b) : LiesIn f a b :=
  ⟨h.lt, h.inj, h.label_eq, h.incident_perm⟩

namespace LiesIn

variable {f : Nat → Nat} {a b : GraphView} (h : LiesIn f a b) {u v : Nat}

include h

theorem labels_perm (hu : u < a.nodeCount) (hv : v < a.nodeCount) :
    (a.labelsBetween u v).Perm (b.labelsBetween (f u) (f v)) := by
  have hperm := ((h.incident_perm hu).filter fun e => e.node == f v).map Incidence.label
  rw [List.filter_map, List.map_map] at hperm
  refine List.Perm.trans (List.Perm.of_eq ?_) hperm
  have hfilter : (a.incident u).filter (·.node == v) = (a.incident u).filter
      ((fun e : Incidence => e.node == f v) ∘ fun e => ⟨f e.node, e.label⟩) := by
    refine List.filter_congr fun e he => ?_
    rw [Function.comp_apply, Bool.eq_iff_iff, beq_iff_eq, beq_iff_eq]
    exact ⟨fun heq => heq ▸ rfl, h.inj (a.mem_lt he).2 hv⟩
  rw [labelsBetween, hfilter]
  rfl

theorem hasEdge_eq (hu : u < a.nodeCount) (hv : v < a.nodeCount) :
    b.hasEdge (f u) (f v) = a.hasEdge u v :=
  (hasEdge_eq_of_length_eq (h.labels_perm hu hv).length_eq).symm

end LiesIn

/-! ### Disjoint unions -/

section

variable (g h : GraphView) {u v : Nat}

theorem label_disjointUnion_of_lt (hv : v < g.nodeCount) :
    (g.disjointUnion h).label v = g.label v :=
  if_pos hv

theorem label_disjointUnion_add (v : Nat) :
    (g.disjointUnion h).label (g.nodeCount + v) = h.label v := by
  refine (if_neg (Nat.not_lt.mpr (Nat.le_add_right ..))).trans ?_
  rw [Nat.add_sub_cancel_left]

theorem incident_disjointUnion_of_lt (hv : v < g.nodeCount) :
    (g.disjointUnion h).incident v = g.incident v :=
  if_pos hv

theorem incident_disjointUnion_add (v : Nat) :
    (g.disjointUnion h).incident (g.nodeCount + v) =
      (h.incident v).map (shiftIncidence g.nodeCount) := by
  refine (if_neg (Nat.not_lt.mpr (Nat.le_add_right ..))).trans ?_
  rw [Nat.add_sub_cancel_left]

theorem liesIn_disjointUnion_left : LiesIn (fun v => v) g (g.disjointUnion h) where
  lt hv := Nat.lt_add_right _ hv
  inj _ _ heq := heq
  label_eq hv := label_disjointUnion_of_lt g h hv
  incident_perm hv := by
    rw [incident_disjointUnion_of_lt g h hv]
    exact List.Perm.of_eq (List.map_id _)

theorem liesIn_disjointUnion_right : LiesIn (g.nodeCount + ·) h (g.disjointUnion h) where
  lt hv := Nat.add_lt_add_left hv _
  inj _ _ heq := Nat.add_left_cancel heq
  label_eq _ := label_disjointUnion_add g h _
  incident_perm _ := List.Perm.of_eq (incident_disjointUnion_add g h _).symm

variable {g h}

/-- An edge has both endpoints on one side. -/
theorem lt_iff_of_hasEdge_disjointUnion (hedge : (g.disjointUnion h).hasEdge u v = true) :
    u < g.nodeCount ↔ v < g.nodeCount := by
  obtain ⟨e, he, hnode⟩ := List.any_eq_true.mp hedge
  rw [beq_iff_eq] at hnode
  subst hnode
  have hmem : e ∈ unionIncident g h u := he
  rw [unionIncident] at hmem
  split at hmem
  · next hu => exact iff_of_true hu (g.mem_lt hmem).2
  · next hu =>
    obtain ⟨e', -, rfl⟩ := List.mem_map.mp hmem
    exact iff_of_false hu (Nat.not_lt.mpr (Nat.le_add_right ..))

/-- **Linked nodes** are on one side. -/
theorem Linked.lt_iff_of_disjointUnion (hlinked : (g.disjointUnion h).Linked u v) :
    u < g.nodeCount ↔ v < g.nodeCount := by
  induction hlinked with
  | refl => exact Iff.rfl
  | tail _ hedge ih => exact ih.trans (lt_iff_of_hasEdge_disjointUnion hedge)

end

/-! ### Connected graphs -/

/-- The graph has nodes, and edges lead from every node to every other one. -/
structure IsConnected (g : GraphView) : Prop where
  /-- There is a node. -/
  nodeCount_pos : 0 < g.nodeCount
  /-- Edges lead from every node to every other one. -/
  linked : ∀ u < g.nodeCount, ∀ v < g.nodeCount, g.Linked u v

instance (g : GraphView) : Decidable g.IsConnected :=
  decidable_of_iff (0 < g.nodeCount ∧ ∀ u < g.nodeCount, ∀ v < g.nodeCount, g.Linked u v)
    ⟨fun h => ⟨h.1, h.2⟩, fun h => ⟨h.1, h.2⟩⟩

end GraphView

end GraphGrammar
