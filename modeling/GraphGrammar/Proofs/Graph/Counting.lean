import Mathlib.Algebra.BigOperators.Group.Finset.Piecewise
import Mathlib.Data.List.Perm.Basic
import GraphGrammar.Graph.Basic
import GraphGrammar.Proofs.SortedSet

/-!
# Counting edges

A view lists the edges around every node. What is read off these lists is brought together here: an
edge between two nodes is seen by both, the degree of a node is the number of edges to all nodes,
and the degrees and self-loops of all nodes together count every edge twice.

## Main results

* `GraphGrammar.GraphView.labelsBetween_perm_swap` — both endpoints list the same labels.
* `GraphGrammar.GraphView.degree_eq_sum` — the degree as a sum over all nodes.
* `GraphGrammar.GraphView.sum_degree_add_selfLoops` — every edge is counted twice.
* `GraphGrammar.Graph.sumBelow_selfLoops` — every self-loop is counted once.
-/

open scoped BigOperators

namespace GraphGrammar

theorem sumBelow_eq_sum (n : Nat) (f : Nat → Nat) : sumBelow n f = ∑ v ∈ Finset.range n, f v := by
  induction n with
  | zero => rfl
  | succ n ih => rw [sumBelow, ih, Finset.sum_range_succ]

namespace GraphView

variable (g : GraphView)

/-! ### Labels between two nodes -/

/-- The labels between two nodes are those of the incidences that lead from the one to the
other. -/
theorem count_labelsBetween (a b : Nat) (l : String) :
    (g.labelsBetween a b).count l = (g.incident a).count ⟨b, l⟩ := by
  rw [labelsBetween, List.count_eq_countP, List.count_eq_countP, List.countP_map,
    List.countP_filter]
  refine List.countP_congr fun e _ => ?_
  obtain ⟨node, label⟩ := e
  simp [and_comm]

theorem labelsBetween_perm_swap (a b : Nat) :
    (g.labelsBetween a b).Perm (g.labelsBetween b a) := by
  refine List.perm_iff_count.mpr fun l => ?_
  rw [count_labelsBetween, count_labelsBetween, g.count_comm]

theorem labelsBetween_eq_nil_iff {a b : Nat} :
    g.labelsBetween a b = [] ↔ g.hasEdge a b = false := by
  simp [labelsBetween, hasEdge]

/-- Nodes are joined if as many labels lie between them as between nodes that are joined. -/
theorem hasEdge_of_length_le {g h : GraphView} {a b c d : Nat}
    (hle : (g.labelsBetween a b).length ≤ (h.labelsBetween c d).length)
    (hedge : g.hasEdge a b = true) : h.hasEdge c d = true := by
  rw [← Bool.not_eq_false, ← labelsBetween_eq_nil_iff] at hedge ⊢
  intro hnil
  rw [hnil, List.length_nil, Nat.le_zero, List.length_eq_zero_iff] at hle
  exact hedge hle

theorem hasEdge_eq_of_length_eq {g h : GraphView} {a b c d : Nat}
    (heq : (g.labelsBetween a b).length = (h.labelsBetween c d).length) :
    g.hasEdge a b = h.hasEdge c d :=
  Bool.eq_iff_iff.mpr ⟨hasEdge_of_length_le heq.le, hasEdge_of_length_le heq.ge⟩

theorem lt_of_mem_labelsBetween {a b : Nat} {l : String} (h : l ∈ g.labelsBetween a b) :
    a < g.nodeCount ∧ b < g.nodeCount := by
  obtain ⟨e, he, -⟩ := List.mem_map.mp h
  obtain ⟨he, hb⟩ := List.mem_filter.mp he
  rw [← eq_of_beq hb]
  exact g.mem_lt he

theorem hasEdge_comm (a b : Nat) : g.hasEdge a b = g.hasEdge b a :=
  hasEdge_eq_of_length_eq (g.labelsBetween_perm_swap a b).length_eq

theorem length_labelsBetween_self (v : Nat) :
    (g.labelsBetween v v).length = g.selfLoops v := by
  simp [labelsBetween, selfLoops, List.countP_eq_length_filter]

/-! ### Degrees -/

/-- Incidences that lead to nodes below `n` are counted node by node. -/
theorem length_eq_sum_countP {es : List Incidence} {n : Nat} (h : ∀ e ∈ es, e.node < n) :
    es.length = ∑ w ∈ Finset.range n, es.countP (·.node == w) := by
  induction es with
  | nil => simp
  | cons e es ih =>
    have hsingle : ∑ w ∈ Finset.range n, (if e.node = w then 1 else 0) = 1 := by
      rw [Finset.sum_ite_eq, if_pos (Finset.mem_range.mpr (h e (List.mem_cons_self ..)))]
    simp only [List.length_cons, List.countP_cons, Finset.sum_add_distrib, beq_iff_eq, hsingle,
      ih fun e' he' => h e' (List.mem_cons_of_mem _ he')]

theorem degree_eq_sum (v : Nat) :
    g.degree v = ∑ w ∈ Finset.range g.nodeCount, (g.labelsBetween v w).length := by
  rw [degree, length_eq_sum_countP fun e he => (g.mem_lt he).2]
  refine Finset.sum_congr rfl fun w _ => ?_
  rw [labelsBetween, List.length_map, List.countP_eq_length_filter]

/-- Without its self-loops, a node has the edges to the other nodes. -/
theorem degree_sub_selfLoops {v : Nat} (hv : v < g.nodeCount) :
    g.degree v - g.selfLoops v =
      ∑ w ∈ (Finset.range g.nodeCount).erase v, (g.labelsBetween v w).length := by
  rw [degree_eq_sum, ← Finset.add_sum_erase _ _ (Finset.mem_range.mpr hv),
    length_labelsBetween_self, Nat.add_sub_cancel_left]

theorem selfLoops_le_degree (v : Nat) : g.selfLoops v ≤ g.degree v := List.countP_le_length

/-- **Every edge is counted at both of its ends.** -/
theorem sum_degree_add_selfLoops :
    ∑ v ∈ Finset.range g.nodeCount, (g.degree v + g.selfLoops v) = 2 * g.edgeCount := by
  rw [← sumBelow_eq_sum]
  exact g.degree_sum

/-! ### Neighbours -/

theorem mem_neighbours {v w : Nat} : w ∈ (g.neighbours v).toList ↔ g.hasEdge v w = true := by
  simp [neighbours, hasEdge]

end GraphView

/-! ### Self-loops -/

theorem Graph.selfLoops_view (g : Graph) (v : Nat) :
    g.view.selfLoops v = g.edges.countP fun e => e.source == v && e.target == v := by
  rw [GraphView.selfLoops, view_incident, List.countP_filterMap]
  refine List.countP_congr fun e _ => ?_
  simp only [Edge.seenFrom, Edge.touches, Edge.other]
  by_cases hs : e.source = v <;> by_cases ht : e.target = v <;> simp [hs, ht]

/-- A self-loop is at one node, and any other edge at none. -/
theorem sumBelow_countP_selfLoop {n : Nat} {edges : List Edge}
    (h : ∀ e ∈ edges, e.source < n ∧ e.target < n) :
    sumBelow n (fun v => edges.countP fun e => e.source == v && e.target == v) =
      edges.countP Edge.isSelfLoop := by
  induction edges with
  | nil => exact sumBelow_zero n
  | cons e edges ih =>
    obtain ⟨⟨-, ht⟩, hrest⟩ := List.forall_mem_cons.mp h
    have hone : sumBelow n (fun v => if (e.source == v && e.target == v) = true then 1 else 0) =
        if e.isSelfLoop = true then 1 else 0 := by
      by_cases hloop : e.source = e.target
      · simp [Edge.isSelfLoop, hloop, sumBelow_ite_eq, ht]
      · have hnone : ∀ v, ¬(e.source = v ∧ e.target = v) := by omega
        simp [Edge.isSelfLoop, hloop, hnone, sumBelow_zero]
    simp only [List.countP_cons, sumBelow_add, ih hrest, hone]

/-- **Every self-loop** is counted at its one node. -/
theorem Graph.sumBelow_selfLoops (g : Graph) :
    sumBelow g.labels.length g.view.selfLoops = g.edges.countP Edge.isSelfLoop :=
  (sumBelow_congr fun v _ => g.selfLoops_view v).trans (sumBelow_countP_selfLoop g.endpoints_lt)

end GraphGrammar
