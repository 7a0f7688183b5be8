import Mathlib.Data.Finset.Card
import Mathlib.Algebra.Order.BigOperators.Group.Finset
import GraphGrammar.Pattern.Basic
import GraphGrammar.Proofs.Graph.Counting
import GraphGrammar.Proofs.Matching.Assignment

/-!
# Matches

What a match of a pattern in a target is, without reference to how it is found: distinct nodes of
the target for the nodes of the pattern, such that labels are admitted, the edges between any two
nodes of the pattern can be given distinct edges between their images, and the constraints hold.

A match has consequences that a search can check early: an image has at least as many self-loops
and at least as many edges to other nodes as the node itself, and the target has at least as many
nodes and as many edges as the pattern.

## Main definitions

* `GraphGrammar.Pattern.IsMatch` — a mapping, listed by the nodes of the pattern, is a match.

## Main results

* `GraphGrammar.Pattern.IsMatch.plainDegree_le` — the edges to other nodes.
* `GraphGrammar.Pattern.IsMatch.edgeCount_le` — the edges of the whole graph.
-/

open scoped BigOperators

namespace GraphGrammar

namespace Constraint

/-- A judgement depends only on the images of the nodes that the constraint refers to. -/
theorem holds_congr {c : Constraint} {t : GraphView} {image : Nat → Option Nat}
    (image' : Nat → Option Nat) (h : ∀ v ∈ c.nodes, image v = image' v) :
    c.holds t image = c.holds t image' := by
  cases c <;> simp only [nodes, List.mem_cons, List.not_mem_nil, or_false, forall_eq_or_imp,
    forall_eq] at h <;> simp only [holds, h]

end Constraint

namespace Pattern

variable {p : Pattern} {t : GraphView} {m : List Nat}

theorem lt_of_mem_nodes (hp : p.inRange = true) {c : Constraint} (hc : c ∈ p.constraints) {v : Nat}
    (hv : v ∈ c.nodes) : v < p.graph.nodeCount :=
  of_decide_eq_true (List.all_eq_true.mp (List.all_eq_true.mp hp c hc) v hv)

/-- The list `m` of images, in the order of the nodes of the pattern, is a match in `t`. -/
structure IsMatch (p : Pattern) (t : GraphView) (m : List Nat) : Prop where
  /-- Every node of the pattern has an image. -/
  length_eq : m.length = p.graph.nodeCount
  /-- Distinct nodes have distinct images. -/
  nodup : m.Nodup
  /-- Images are nodes of the target. -/
  lt_nodeCount : ∀ a ∈ m, a < t.nodeCount
  /-- The label of a node admits the label of its image. -/
  labelFits : ∀ {v a : Nat}, m[v]? = some a →
    labelFits p.wildcard (p.graph.label v) (t.label a) = true
  /-- The edges between two nodes, or around one, can be given edges of their own. -/
  assignable : ∀ {u v a b : Nat}, m[u]? = some a → m[v]? = some b →
    Assignable p.wildcard (p.graph.labelsBetween u v) (t.labelsBetween a b)
  /-- The constraints hold. -/
  holds : ∀ c ∈ p.constraints, c.holds t (fun v => m[v]?) = true

namespace IsMatch

/-- The images as a function, which outside of the pattern has no meaning. -/
theorem exists_image (h : p.IsMatch t m) {v : Nat} (hv : v < p.graph.nodeCount) :
    m[v]? = some (m.getD v 0) ∧ m.getD v 0 < t.nodeCount := by
  have hlt : v < m.length := h.length_eq ▸ hv
  have hget : m[v]? = some (m.getD v 0) := by simp [hlt]
  exact ⟨hget, h.lt_nodeCount _ (List.mem_of_getElem? hget)⟩

theorem image_inj (h : p.IsMatch t m) {u v : Nat} (hu : u < p.graph.nodeCount)
    (hv : v < p.graph.nodeCount) (heq : m.getD u 0 = m.getD v 0) : u = v := by
  have hu' : u < m.length := h.length_eq ▸ hu
  have hv' : v < m.length := h.length_eq ▸ hv
  exact (List.getD_inj hu' hv' h.nodup).mp heq

theorem length_labelsBetween_le (h : p.IsMatch t m) {u v : Nat} (hu : u < p.graph.nodeCount)
    (hv : v < p.graph.nodeCount) : (p.graph.labelsBetween u v).length ≤
      (t.labelsBetween (m.getD u 0) (m.getD v 0)).length := by
  obtain ⟨place, hinj, -⟩ := h.assignable (h.exists_image hu).1 (h.exists_image hv).1
  simpa using Fintype.card_le_of_injective place hinj

theorem selfLoops_le (h : p.IsMatch t m) {v : Nat} (hv : v < p.graph.nodeCount) :
    p.graph.selfLoops v ≤ t.selfLoops (m.getD v 0) := by
  rw [← GraphView.length_labelsBetween_self, ← GraphView.length_labelsBetween_self]
  exact h.length_labelsBetween_le hv hv

/-- The edges of a node to other nodes are found again around its image: those to one node lead to
the image of that node. -/
theorem plainDegree_le (h : p.IsMatch t m) {v : Nat} (hv : v < p.graph.nodeCount) :
    p.graph.degree v - p.graph.selfLoops v ≤
      t.degree (m.getD v 0) - t.selfLoops (m.getD v 0) := by
  rw [GraphView.degree_sub_selfLoops _ hv, GraphView.degree_sub_selfLoops _ (h.exists_image hv).2]
  let others := (Finset.range p.graph.nodeCount).erase v
  have hmem : ∀ w ∈ others, w ≠ v ∧ w < p.graph.nodeCount := by
    intro w hw
    simpa [others] using hw
  have hinj : Set.InjOn (fun w => m.getD w 0) others := by
    intro u hu w hw
    exact h.image_inj (hmem u hu).2 (hmem w hw).2
  calc ∑ w ∈ others, (p.graph.labelsBetween v w).length
      ≤ ∑ w ∈ others, (t.labelsBetween (m.getD v 0) (m.getD w 0)).length :=
        Finset.sum_le_sum fun w hw => h.length_labelsBetween_le hv (hmem w hw).2
    _ = ∑ b ∈ others.image (fun w => m.getD w 0), (t.labelsBetween (m.getD v 0) b).length :=
        by rw [Finset.sum_image hinj]
    _ ≤ ∑ b ∈ (Finset.range t.nodeCount).erase (m.getD v 0),
          (t.labelsBetween (m.getD v 0) b).length := by
        refine Finset.sum_le_sum_of_subset fun b hb => ?_
        obtain ⟨w, hw, rfl⟩ := Finset.mem_image.mp hb
        refine Finset.mem_erase.mpr ⟨fun heq => (hmem w hw).1 ?_, ?_⟩
        · exact h.image_inj (hmem w hw).2 hv heq
        · exact Finset.mem_range.mpr (h.exists_image (hmem w hw).2).2

theorem degree_le (h : p.IsMatch t m) {v : Nat} (hv : v < p.graph.nodeCount) :
    p.graph.degree v ≤ t.degree (m.getD v 0) := by
  have hplain := h.plainDegree_le hv
  have hloops := h.selfLoops_le hv
  have := t.selfLoops_le_degree (m.getD v 0)
  omega

theorem nodeCount_le (h : p.IsMatch t m) : p.graph.nodeCount ≤ t.nodeCount := by
  rw [← h.length_eq, ← List.length_range (n := t.nodeCount)]
  exact (h.nodup.subperm fun a ha => List.mem_range.mpr (h.lt_nodeCount a ha)).length_le

/-- The target has as many edges as the pattern, because its nodes have the degrees and self-loops
that the pattern asks of them. -/
theorem edgeCount_le (h : p.IsMatch t m) : p.graph.edgeCount ≤ t.edgeCount := by
  have hinj : Set.InjOn (fun v => m.getD v 0) (Finset.range p.graph.nodeCount) := by
    intro u hu v hv
    exact h.image_inj (by simpa using hu) (by simpa using hv)
  have key : 2 * p.graph.edgeCount ≤ 2 * t.edgeCount := by
    rw [← GraphView.sum_degree_add_selfLoops, ← GraphView.sum_degree_add_selfLoops]
    calc ∑ v ∈ Finset.range p.graph.nodeCount, (p.graph.degree v + p.graph.selfLoops v)
        ≤ ∑ v ∈ Finset.range p.graph.nodeCount,
            (t.degree (m.getD v 0) + t.selfLoops (m.getD v 0)) :=
          Finset.sum_le_sum fun v hv => Nat.add_le_add (h.degree_le (Finset.mem_range.mp hv))
            (h.selfLoops_le (Finset.mem_range.mp hv))
      _ = ∑ a ∈ (Finset.range p.graph.nodeCount).image (fun v => m.getD v 0),
            (t.degree a + t.selfLoops a) := by rw [Finset.sum_image hinj]
      _ ≤ ∑ a ∈ Finset.range t.nodeCount, (t.degree a + t.selfLoops a) := by
          refine Finset.sum_le_sum_of_subset fun a ha => ?_
          obtain ⟨v, hv, rfl⟩ := Finset.mem_image.mp ha
          exact Finset.mem_range.mpr (h.exists_image (Finset.mem_range.mp hv)).2
  omega

end IsMatch

end Pattern

end GraphGrammar
