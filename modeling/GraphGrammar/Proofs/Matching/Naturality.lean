import Mathlib.Algebra.GroupWithZero.Nat
import GraphGrammar.Proofs.Graph.Region
import GraphGrammar.Proofs.Matching.Match
import GraphGrammar.Proofs.Matching.PartialMatch

/-!
# Matches and isomorphisms

A match stays a match when the target is found in another one with all edges around its nodes, in
particular when it is replaced by an isomorphic one. A match of a graph in a graph that is not
larger is an isomorphism.

## Main results

* `GraphGrammar.Constraint.holds_map` — constraints read a target as they read what it lies in.
* `GraphGrammar.Pattern.isMatch_map_iff` — so do matches.
* `GraphGrammar.Pattern.isIso_of_isMatch` — matches onto the whole target.
-/

open scoped BigOperators

namespace GraphGrammar

variable {f : Nat → Nat} {a b : GraphView}

/-! ### Constraints -/

namespace Constraint

theorem foldl_halves (l : List Incidence) (v halves : Nat) :
    l.foldl (fun halves e => halves + if e.node == v then 1 else 2) halves =
      halves + (l.map fun e => if e.node == v then 1 else 2).sum := by
  induction l generalizing halves with
  | nil => rfl
  | cons e l ih =>
    rw [List.foldl_cons, ih, List.map_cons, List.sum_cons, Nat.add_assoc]

/-- Edges around a node are counted the same in a graph that this one lies in. -/
theorem halfEdgeCount_map (hf : GraphView.LiesIn f a b) {v : Nat} (hv : v < a.nodeCount)
    (nodeLabels edgeLabels : SortedSet String) :
    halfEdgeCount b (f v) nodeLabels edgeLabels = halfEdgeCount a v nodeLabels edgeLabels := by
  rw [halfEdgeCount, halfEdgeCount, foldl_halves, foldl_halves]
  have hperm := (((hf.incident_perm hv).filter fun e =>
    passes edgeLabels e.label && passes nodeLabels (b.label e.node)).map
      fun e => if e.node == f v then 1 else 2).sum_eq
  rw [← hperm, List.filter_map, List.map_map]
  have hfilter : (a.incident v).filter ((fun e : Incidence => passes edgeLabels e.label &&
      passes nodeLabels (b.label e.node)) ∘ fun e => ⟨f e.node, e.label⟩) =
      (a.incident v).filter fun e =>
        passes edgeLabels e.label && passes nodeLabels (a.label e.node) :=
    List.filter_congr fun e he => by
      rw [Function.comp_apply, hf.label_eq (a.mem_lt he).2]
  rw [hfilter]
  refine congrArg (fun l => 0 + List.sum l) (List.map_congr_left fun e he => ?_)
  have hnode := (a.mem_lt (List.mem_of_mem_filter he)).2
  have hiff : (f e.node == f v) = (e.node == v) := by
    rw [Bool.eq_iff_iff, beq_iff_eq, beq_iff_eq]
    exact ⟨hf.inj hnode hv, fun heq => heq ▸ rfl⟩
  rw [Function.comp_apply, hiff]

/-- Whether there are labels and all are admitted does not depend on their order. -/
theorem admits_congr {labels labels' : List String} (h : labels.Perm labels')
    (admits : String → Bool) :
    (!labels.isEmpty && labels.all admits) = (!labels'.isEmpty && labels'.all admits) := by
  rw [h.isEmpty_eq, h.all_eq]

/-- **Constraints** do not tell a target from one that it lies in. -/
theorem holds_map (hf : GraphView.LiesIn f a b) (c : Constraint) {image : Nat → Option Nat}
    (himage : ∀ {v w : Nat}, image v = some w → w < a.nodeCount) :
    c.holds b (fun v => (image v).map f) = c.holds a image := by
  cases c with
  | nodeLabel node labels policy =>
    rw [holds, holds]
    cases hnode : image node with
    | none => rfl
    | some v => simp only [Option.map_some, hf.label_eq (himage hnode)]
  | edgeLabel x y labels policy =>
    rw [holds, holds]
    cases hx : image x with
    | none => rfl
    | some v =>
      cases hy : image y with
      | none => rfl
      | some w =>
        exact (admits_congr (hf.labels_perm (himage hx) (himage hy)) _).symm
  | noEdge x y =>
    rw [holds, holds]
    cases hx : image x with
    | none => rfl
    | some v =>
      cases hy : image y with
      | none => rfl
      | some w => simp only [Option.map_some, hf.hasEdge_eq (himage hx) (himage hy)]
  | nodeAdjacency node op count nodeLabels edgeLabels =>
    rw [holds, holds]
    cases hnode : image node with
    | none => rfl
    | some v => simp only [Option.map_some, halfEdgeCount_map hf (himage hnode)]

end Constraint

/-! ### Matches in targets that lie in others -/

theorem Assignable.congr {wildcard : Option String} {required required' available
    available' : List String} (h : Assignable wildcard required available)
    (hrequired : required.Perm required')
    (havailable : available.Perm available') : Assignable wildcard required' available' := by
  rw [assignable_iff_labelsFit] at h ⊢
  rwa [← labelsFit_congr hrequired havailable]

namespace Pattern

variable {p : Pattern} {m : List Nat}

/-- **Matches in a target** are matches in a target that it lies in. -/
theorem IsMatch.map (h : p.IsMatch a m) (hf : GraphView.LiesIn f a b) :
    p.IsMatch b (m.map f) where
  length_eq := by rw [List.length_map, h.length_eq]
  nodup := h.nodup.map_on fun x hx y hy heq =>
    hf.inj (h.lt_nodeCount x hx) (h.lt_nodeCount y hy) heq
  lt_nodeCount x hx := by
    obtain ⟨y, hy, rfl⟩ := List.mem_map.mp hx
    exact hf.lt (h.lt_nodeCount y hy)
  labelFits hv := by
    rw [List.getElem?_map, Option.map_eq_some_iff] at hv
    obtain ⟨x, hx, rfl⟩ := hv
    rw [hf.label_eq (h.lt_nodeCount x (List.mem_of_getElem? hx))]
    exact h.labelFits hx
  assignable hu hv := by
    rw [List.getElem?_map, Option.map_eq_some_iff] at hu hv
    obtain ⟨x, hx, rfl⟩ := hu
    obtain ⟨y, hy, rfl⟩ := hv
    exact (h.assignable hx hy).congr (List.Perm.refl _)
      (hf.labels_perm (h.lt_nodeCount x (List.mem_of_getElem? hx))
        (h.lt_nodeCount y (List.mem_of_getElem? hy)))
  holds c hc := by
    have hmap : c.holds b (fun v => (m[v]?).map f) = c.holds a fun v => m[v]? :=
      c.holds_map hf fun hv => h.lt_nodeCount _ (List.mem_of_getElem? hv)
    rw [← h.holds c hc, ← hmap]
    simp only [List.getElem?_map]

theorem IsMatch.of_map (h : p.IsMatch b (m.map f)) (hf : GraphView.LiesIn f a b)
    (hlt : ∀ x ∈ m, x < a.nodeCount) : p.IsMatch a m where
  length_eq := by rw [← h.length_eq, List.length_map]
  nodup := h.nodup.of_map f
  lt_nodeCount := hlt
  labelFits {v x} hx := by
    have hfits := h.labelFits (v := v) (a := f x) (by rw [List.getElem?_map, hx, Option.map_some])
    rwa [hf.label_eq (hlt x (List.mem_of_getElem? hx))] at hfits
  assignable {u v x y} hx hy := by
    have hfits := h.assignable (u := u) (v := v) (a := f x) (b := f y)
      (by rw [List.getElem?_map, hx, Option.map_some])
      (by rw [List.getElem?_map, hy, Option.map_some])
    exact hfits.congr (List.Perm.refl _) (hf.labels_perm (hlt x (List.mem_of_getElem? hx))
      (hlt y (List.mem_of_getElem? hy))).symm
  holds c hc := by
    have hholds := h.holds c hc
    simp only [List.getElem?_map] at hholds
    rwa [c.holds_map hf fun hv => hlt _ (List.mem_of_getElem? hv)] at hholds

/-- **A target that lies in another one** has, of the matches in the other one, those whose images
lie in it. -/
theorem isMatch_map_iff (hf : GraphView.LiesIn f a b) (hlt : ∀ x ∈ m, x < a.nodeCount) :
    p.IsMatch b (m.map f) ↔ p.IsMatch a m :=
  ⟨fun h => h.of_map hf hlt, fun h => h.map hf⟩

/-! ### Matches onto the whole target -/

/-- Without a wildcard, labels are given the same labels. -/
theorem subperm_of_assignable {required available : List String}
    (h : Assignable none required available) : required.Subperm available := by
  obtain ⟨chosen, hfits, hsub⟩ := h.exists_subperm
  have heq : required = chosen := by
    rw [← List.forall₂_eq_eq_eq]
    exact hfits.imp fun l found hl => eq_of_labelFits hl (by simp)
  rwa [heq]

/-- **A match onto the whole target** is an isomorphism: no edge of the target is left over. -/
theorem isIso_of_isMatch (h : (ofGraph a).IsMatch b m) (hnodes : a.nodeCount = b.nodeCount)
    (hedges : a.edgeCount = b.edgeCount) : GraphView.IsIso (fun v => m.getD v 0) a b := by
  have hlt : ∀ v ∈ Finset.range a.nodeCount, m.getD v 0 ∈ Finset.range a.nodeCount := by
    intro v hv
    rw [Finset.mem_range] at hv ⊢
    rw [hnodes]
    exact (h.exists_image hv).2
  have hinj : Set.InjOn (fun v => m.getD v 0) (Finset.range a.nodeCount) := fun u hu v hv heq =>
    
    h.image_inj (Finset.mem_range.mp (Finset.mem_coe.mp hu))
      (Finset.mem_range.mp (Finset.mem_coe.mp hv))
      heq
  have hsum : ∀ F : Nat → Nat, ∑ v ∈ Finset.range a.nodeCount, F (m.getD v 0) =
      ∑ w ∈ Finset.range a.nodeCount, F w := fun F =>
    Finset.sum_nbij (fun v => m.getD v 0) hlt hinj
      (Finset.surjOn_of_injOn_of_card_le _ hlt hinj (Nat.le_refl _)) fun _ _ => rfl
  -- the degrees do not grow, since all of them together do not
  have hends : ∀ v ∈ Finset.range a.nodeCount,
      a.degree v + a.selfLoops v = b.degree (m.getD v 0) + b.selfLoops (m.getD v 0) := by
    refine (Finset.sum_eq_sum_iff_of_le fun v hv => ?_).mp ?_
    · exact Nat.add_le_add (h.degree_le (Finset.mem_range.mp hv))
        (h.selfLoops_le (Finset.mem_range.mp hv))
    · rw [hsum fun w => b.degree w + b.selfLoops w, a.sum_degree_add_selfLoops, hedges, hnodes,
        b.sum_degree_add_selfLoops]
  have hdegree : ∀ v ∈ Finset.range a.nodeCount, a.degree v = b.degree (m.getD v 0) := by
    intro v hv
    have hle := h.degree_le (Finset.mem_range.mp hv)
    have hloops := h.selfLoops_le (Finset.mem_range.mp hv)
    have := hends v hv
    simp only [ofGraph] at hle hloops
    omega
  -- and so the edges between any two nodes do not grow
  have hlength : ∀ u ∈ Finset.range a.nodeCount, ∀ v ∈ Finset.range a.nodeCount,
      (a.labelsBetween u v).length = (b.labelsBetween (m.getD u 0) (m.getD v 0)).length := by
    intro u hu
    refine (Finset.sum_eq_sum_iff_of_le fun v hv => ?_).mp ?_
    · exact h.length_labelsBetween_le (Finset.mem_range.mp hu) (Finset.mem_range.mp hv)
    · rw [hsum fun w => (b.labelsBetween (m.getD u 0) w).length, ← a.degree_eq_sum, hnodes,
        ← b.degree_eq_sum, hdegree u hu]
  refine ⟨hnodes, fun hv => (h.exists_image hv).2, h.image_inj, fun hv => ?_, fun hu hv => ?_⟩
  · exact (eq_of_labelFits (h.labelFits (h.exists_image hv).1) (by simp [ofGraph])).symm
  · have hsub := subperm_of_assignable (h.assignable (h.exists_image hu).1 (h.exists_image hv).1)
    exact hsub.perm_of_length_le
      (hlength _ (Finset.mem_range.mpr hu) _ (Finset.mem_range.mpr hv)).ge

end Pattern

end GraphGrammar
