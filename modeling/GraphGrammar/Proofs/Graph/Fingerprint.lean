import Mathlib.Order.Fin.Basic
import GraphGrammar.Graph.Composite
import GraphGrammar.Graph.Fingerprint
import GraphGrammar.Proofs.Graph.Renumber
import GraphGrammar.Proofs.Lists
import GraphGrammar.Rule.Side

/-!
# Fingerprints of isomorphic graphs

In every round, a node and its image have the same colour: they have the same label, and they see
the same, apart from the order. What is seen is sorted before it is hashed, and so are the colours
of all nodes.

## Main results

* `GraphGrammar.GraphView.IsIso.colors_eq` — the colours after some rounds.
* `GraphGrammar.GraphView.IsIso.fingerprint_eq` — isomorphic graphs have the same fingerprint.
* `GraphGrammar.GraphView.fingerprint_invariant` — the same for bijections between the nodes, for
  renumbered graphs, and for the order and the direction of edges.
-/

namespace GraphGrammar

namespace GraphView

/-! ### Sorting -/

namespace Sight

/-- The order in which sights are sorted. -/
def order : Sight → Sight → Ordering :=
  compareLex (compareOn Sight.selfLoop) (compareLex (compareOn Sight.label) (compareOn Sight.color))

instance : Std.TransCmp order :=
  inferInstanceAs (Std.TransCmp (compareLex (compareOn Sight.selfLoop)
    (compareLex (compareOn Sight.label) (compareOn Sight.color))))

instance : Std.LawfulEqCmp order where
  eq_of_compare {a b} h := by
    simp only [order, compareLex, compareOn, Ordering.then_eq_eq,
      Std.LawfulEqOrd.compare_eq_iff_eq] at h
    obtain ⟨hloop, hlabel, hcolor⟩ := h
    cases a
    cases b
    simp_all

end Sight

/-- Only what is seen counts for the next colour, not the order. -/
theorem nextColor_eq_of_perm (own : Color) {seen seen' : List Sight} (h : seen.Perm seen') :
    nextColor own seen = nextColor own seen' := by
  have hsorted : seen.mergeSort Sight.atMost = seen'.mergeSort Sight.atMost :=
    mergeSort_eq_of_perm Sight.order h
  rw [nextColor, nextColor, h.length_eq, hsorted]

theorem histogramBytes_eq_of_perm {l l' : List Color} (h : l.Perm l') :
    histogramBytes l = histogramBytes l' := by
  rw [histogramBytes, histogramBytes, mergeSort_eq_of_perm compare h]

/-! ### Colours -/

variable (g : GraphView)

/-- The colour of a node after some rounds. -/
def colorAt (rounds v : Nat) : Color := (g.colors rounds).getD v []

theorem size_colors (rounds : Nat) : (g.colors rounds).size = g.nodeCount := by
  cases rounds <;> simp [colors]

theorem toList_colors (rounds : Nat) :
    (g.colors rounds).toList = (List.range g.nodeCount).map (g.colorAt rounds) := by
  refine List.ext_getElem (by simp [size_colors]) fun v hv _ => ?_
  simp at hv
  simp [colorAt, hv]

variable {g}

theorem colorAt_zero {v : Nat} (hv : v < g.nodeCount) : g.colorAt 0 v = firstColor (g.label v) := by
  simp [colorAt, colors, hv]

theorem colorAt_succ (rounds : Nat) {v : Nat} (hv : v < g.nodeCount) : g.colorAt (rounds + 1) v =
    nextColor (g.colorAt rounds v) (g.sights (g.colorAt rounds) v) := by
  have hlt : v < (g.colors (rounds + 1)).size := by rwa [size_colors]
  rw [colorAt, Array.getD_eq_getD_getElem?, Array.getElem?_eq_getElem hlt, Option.getD_some]
  simp only [colors, Array.getElem_map, Array.getElem_range]
  rfl

namespace IsIso

variable {f : Nat → Nat} {a b : GraphView}

/-- A node and its image see the same. -/
theorem sights_perm (hf : IsIso f a b) {color color' : Nat → Color}
    (hcolor : ∀ v < a.nodeCount, color' (f v) = color v) {v : Nat} (hv : v < a.nodeCount) :
    (a.sights color v).Perm (b.sights color' (f v)) := by
  have hsights := (hf.incident_perm hv).map fun e =>
    (⟨e.node == f v, e.label, color' e.node⟩ : Sight)
  rw [List.map_map] at hsights
  refine List.Perm.trans (List.Perm.of_eq ?_) hsights
  refine List.map_congr_left fun e he => ?_
  have hnode := (a.mem_lt he).2
  have hloop : (f e.node == f v) = (e.node == v) := by
    rw [Bool.eq_iff_iff, beq_iff_eq, beq_iff_eq]
    exact ⟨hf.inj hnode hv, fun heq => heq ▸ rfl⟩
  simp only [Function.comp_apply, hloop, hcolor _ hnode]

/-- **Colours of isomorphic graphs**: in every round, a node and its image have the same colour. -/
theorem colorAt_eq (hf : IsIso f a b) (rounds : Nat) :
    ∀ v < a.nodeCount, b.colorAt rounds (f v) = a.colorAt rounds v := by
  induction rounds with
  | zero =>
    intro v hv
    rw [colorAt_zero hv, colorAt_zero (hf.lt hv), hf.label_eq hv]
  | succ rounds ih =>
    intro v hv
    rw [colorAt_succ rounds hv, colorAt_succ rounds (hf.lt hv), ih v hv]
    exact (nextColor_eq_of_perm _ (hf.sights_perm ih hv)).symm

theorem colors_perm (hf : IsIso f a b) (rounds : Nat) :
    (a.colors rounds).toList.Perm (b.colors rounds).toList := by
  rw [toList_colors, toList_colors]
  refine List.Perm.trans (List.Perm.of_eq ?_) (hf.map_range_perm (b.colorAt rounds))
  exact List.map_congr_left fun v hv => (hf.colorAt_eq rounds v (List.mem_range.mp hv)).symm

/-- **Isomorphic graphs have the same fingerprint.** -/
theorem fingerprint_eq (hf : IsIso f a b) : a.fingerprint = b.fingerprint := by
  rw [fingerprint, fingerprint, fingerprintBytes, fingerprintBytes, hf.nodeCount_eq,
    hf.edgeCount_eq, histogramBytes_eq_of_perm (hf.colors_perm 4)]

end IsIso

/-- **What the fingerprint does not depend on.** Two graphs that are read, each of which may be a
graph, a composition or a side of a rule, have the same fingerprint if there is a bijection between
their nodes that preserves the labels of nodes and, between any two nodes and around every node, the
labels of edges with their multiplicities. A graph can be renumbered by every permutation of its
nodes, and can be built from its edges in any order and in any directions; this does not change the
fingerprint. -/
theorem fingerprint_invariant :
    (∀ a b : GraphView, (∃ f : Fin a.nodeCount ≃ Fin b.nodeCount, (∀ v, b.label (f v) = a.label v) ∧
        ∀ u v : Fin a.nodeCount, (a.labelsBetween u v).Perm (b.labelsBetween (f u) (f v))) →
      a.fingerprint = b.fingerprint) ∧
    (∀ (g : Graph) (perm : List Nat), isPermutation g.nodeCount perm = true →
      ∃ h, g.renumber perm = .ok h ∧ h.view.fingerprint = g.view.fingerprint) ∧
    ∀ (g : Graph) (edges : List Edge), (edges.map Edge.bond).Perm (g.edges.map Edge.bond) →
      ∃ h, Graph.ofParts g.labels edges = .ok h ∧ h.view.fingerprint = g.view.fingerprint := by
  refine ⟨fun a b hequiv => ?_, fun g perm hperm => ?_, fun g edges hedges => ?_⟩
  · obtain ⟨f, hf⟩ := exists_isIso_iff_exists_equiv.mpr hequiv
    exact hf.fingerprint_eq
  · obtain ⟨h, hh⟩ := Graph.exists_renumber hperm
    exact ⟨h, hh, (Graph.isIso_renumber hh).fingerprint_eq.symm⟩
  · obtain ⟨h, hh, hf⟩ := Graph.exists_ofParts_of_bonds_perm hedges
    exact ⟨h, hh, hf.fingerprint_eq⟩

end GraphView

/-- Two nodes with two edges between them, of which one has a self-loop, and a node apart. -/
def Composite.pairAndPoint : Composite :=
  ⟨[(⟨["a", "b"], [⟨0, 1, "-"⟩, ⟨1, 0, "="⟩, ⟨1, 1, "-"⟩], by decide⟩ : Graph).view,
    (⟨["c"], [], by decide⟩ : Graph).view]⟩

/-- A rule that leaves behind the same with its nodes in the opposite order. -/
def Rule.pairAndPoint : Rule where
  id := some "pair and point"
  nodes := [⟨.rightOnly, "c", none⟩, ⟨.leftOnly, "b", none⟩, ⟨.labelChange, "", some "b"⟩,
    ⟨.kept, "a", none⟩]
  edges := [⟨2, 2, .rightOnly, "-"⟩, ⟨3, 2, .kept, "="⟩, ⟨1, 2, .leftOnly, "-"⟩,
    ⟨2, 3, .rightOnly, "-"⟩]
  constraints := []
  directives := []
  wildcard := none

/-- The composition and the right side of the rule have the same fingerprint. So have two edges
after renumbering, and in the other order and in other directions. -/
theorem GraphView.fingerprint_invariant_pairAndPoint :
    (∃ f : Fin Composite.pairAndPoint.view.nodeCount ≃
        Fin (Rule.pairAndPoint.sideGraph .right).view.nodeCount,
      (∀ v, (Rule.pairAndPoint.sideGraph .right).view.label (f v) =
        Composite.pairAndPoint.view.label v) ∧
      ∀ u v : Fin Composite.pairAndPoint.view.nodeCount,
        (Composite.pairAndPoint.view.labelsBetween u v).Perm
          ((Rule.pairAndPoint.sideGraph .right).view.labelsBetween (f u) (f v))) ∧
    Composite.pairAndPoint.view.fingerprint =
      (Rule.pairAndPoint.sideGraph .right).view.fingerprint ∧
    ∃ g : Graph, g.nodeCount = 2 ∧ isPermutation g.nodeCount [1, 0] = true ∧
      ((([⟨1, 1, "="⟩, ⟨1, 0, "-"⟩] : List Edge).map Edge.bond).Perm (g.edges.map Edge.bond)) ∧
      (∃ h, g.renumber [1, 0] = .ok h ∧ h.view.fingerprint = g.view.fingerprint) ∧
      ∃ h, Graph.ofParts g.labels [⟨1, 1, "="⟩, ⟨1, 0, "-"⟩] = .ok h ∧
        h.view.fingerprint = g.view.fingerprint := by
  have hequiv : ∃ f : Fin Composite.pairAndPoint.view.nodeCount ≃
        Fin (Rule.pairAndPoint.sideGraph .right).view.nodeCount,
      (∀ v, (Rule.pairAndPoint.sideGraph .right).view.label (f v) =
        Composite.pairAndPoint.view.label v) ∧
      ∀ u v : Fin Composite.pairAndPoint.view.nodeCount,
        (Composite.pairAndPoint.view.labelsBetween u v).Perm
          ((Rule.pairAndPoint.sideGraph .right).view.labelsBetween (f u) (f v)) :=
    ⟨(Fin.revPerm : Equiv.Perm (Fin 3)), by decide +kernel, by decide +kernel⟩
  let g : Graph := ⟨["a", "b"], [⟨0, 1, "-"⟩, ⟨1, 1, "="⟩], by decide⟩
  have hperm : isPermutation g.nodeCount [1, 0] = true := by decide
  have hbonds : (([⟨1, 1, "="⟩, ⟨1, 0, "-"⟩] : List Edge).map Edge.bond).Perm
      (g.edges.map Edge.bond) := by decide
  exact ⟨hequiv, fingerprint_invariant.1 _ _ hequiv, g, rfl, hperm, hbonds,
    fingerprint_invariant.2.1 g _ hperm, fingerprint_invariant.2.2 g _ hbonds⟩

end GraphGrammar
