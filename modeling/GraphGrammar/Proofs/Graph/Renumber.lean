import Mathlib.Data.List.GetD
import GraphGrammar.Graph.Renumber
import GraphGrammar.Proofs.Codec.WrittenGraph
import GraphGrammar.Proofs.Graph.Isomorphism

/-!
# Renumbered graphs

A graph is renumbered by every permutation of its nodes, and the permutation is an isomorphism to
the renumbered graph. So is the identity between two graphs with the same labels whose edges agree
up to order and direction.

## Main definitions

* `GraphGrammar.Graph.renumberedLabels`, `GraphGrammar.Graph.renumberedEdges`.

## Main results

* `GraphGrammar.Graph.renumber_eq_ok_iff`, `GraphGrammar.Graph.exists_renumber` — the renumbered
  graph, which exists for every permutation.
* `GraphGrammar.Graph.isIso_renumber` — the permutation is an isomorphism.
* `GraphGrammar.Graph.isIso_of_bonds_perm` — the order and the direction of edges.
-/

namespace GraphGrammar

/-- A permutation lists every number below `n` exactly once. -/
theorem isPermutation_iff {n : Nat} {perm : List Nat} : isPermutation n perm = true ↔
    perm.length = n ∧ (∀ v ∈ perm, v < n) ∧ perm.Nodup := by
  simp [isPermutation, and_assoc]

theorem getD_lt_of_isPermutation {n v : Nat} {perm : List Nat} (hperm : isPermutation n perm = true)
    (hv : v < n) : perm.getD v v < n := by
  obtain ⟨hlength, hlt, -⟩ := isPermutation_iff.mp hperm
  rw [← hlength] at hv
  rw [List.getD_eq_getElem _ _ hv]
  exact hlt _ (List.getElem_mem _)

namespace Graph

variable {g h : Graph} {perm : List Nat}

/-- The labels of the renumbered graph. -/
def renumberedLabels (g : Graph) (perm : List Nat) : List String :=
  (List.range g.nodeCount).map fun w => g.labels.getD (perm.idxOf w) ""

/-- The edges of the renumbered graph. -/
def renumberedEdges (g : Graph) (perm : List Nat) : List Edge :=
  g.edges.map (Edge.mapNodes fun v => perm.getD v v)

theorem endpoints_lt_renumbered (hperm : isPermutation g.nodeCount perm = true) :
    ∀ e ∈ g.renumberedEdges perm, e.source < (g.renumberedLabels perm).length ∧
      e.target < (g.renumberedLabels perm).length := by
  intro e he
  obtain ⟨e', he', rfl⟩ := List.mem_map.mp he
  obtain ⟨hs, ht⟩ := g.endpoints_lt e' he'
  rw [renumberedLabels, List.length_map, List.length_range]
  exact ⟨getD_lt_of_isPermutation hperm hs, getD_lt_of_isPermutation hperm ht⟩

theorem renumber_eq_ok_iff : g.renumber perm = .ok h ↔ isPermutation g.nodeCount perm = true ∧
    h.labels = g.renumberedLabels perm ∧ h.edges = g.renumberedEdges perm := by
  rw [renumber]
  split
  · next hperm =>
    rw [and_iff_right hperm]
    exact ofParts_eq_ok_iff.trans (and_iff_right (endpoints_lt_renumbered hperm))
  · next hperm => exact iff_of_false nofun fun h => hperm h.1

/-- **A graph can be renumbered** by every permutation of its nodes. -/
theorem exists_renumber (hperm : isPermutation g.nodeCount perm = true) :
    ∃ h, g.renumber perm = .ok h :=
  ⟨⟨_, _, endpoints_lt_renumbered hperm⟩, renumber_eq_ok_iff.mpr ⟨hperm, rfl, rfl⟩⟩

/-- **Renumbering is an isomorphism.** -/
theorem isIso_renumber (h' : g.renumber perm = .ok h) :
    GraphView.IsIso (fun v => perm.getD v v) g.view h.view := by
  obtain ⟨hperm, hlabels, hedges⟩ := renumber_eq_ok_iff.mp h'
  obtain ⟨hlength, hlt, hnodup⟩ := isPermutation_iff.mp hperm
  have hcount : h.nodeCount = g.nodeCount := by
    rw [nodeCount, hlabels, renumberedLabels, List.length_map, List.length_range]
  refine isIso_view_iff.mpr ⟨hcount.symm, fun {v} hv => ?_, fun {u v} hu hv heq => ?_,
    fun {v} hv => ?_, ?_⟩
  · rw [hcount]
    exact getD_lt_of_isPermutation hperm hv
  · rw [← hlength] at hu hv
    rw [List.getD_eq_getElem _ _ hu, List.getD_eq_getElem _ _ hv] at heq
    exact hnodup.getElem_inj_iff.mp heq
  · have himage := getD_lt_of_isPermutation hperm hv
    rw [← hlength] at hv
    rw [List.getD_eq_getElem _ _ hv] at himage ⊢
    rw [view_label, view_label, hlabels, renumberedLabels, List.getD_eq_getElem?_getD,
      List.getElem?_map, List.getElem?_range himage, Option.map_some, Option.getD_some,
      hnodup.idxOf_getElem]
  · rw [hedges, renumberedEdges, List.map_map]
    exact List.Perm.refl _

/-- Graphs with the same labels whose edges agree up to order and direction. -/
theorem isIso_of_bonds_perm (hlabels : g.labels = h.labels)
    (hedges : (g.edges.map Edge.bond).Perm (h.edges.map Edge.bond)) :
    GraphView.IsIso (fun v => v) g.view h.view := by
  refine isIso_view_iff.mpr ⟨congrArg List.length hlabels, fun hv => ?_, fun _ _ heq => heq,
    fun _ => ?_, ?_⟩
  · rwa [nodeCount, ← hlabels]
  · rw [view_label, view_label, hlabels]
  · simpa only [Bond.map_id] using hedges

/-- Edges that agree with those of a graph up to order and direction give a graph. -/
theorem exists_ofParts_of_bonds_perm {edges : List Edge}
    (hedges : (edges.map Edge.bond).Perm (g.edges.map Edge.bond)) :
    ∃ h, ofParts g.labels edges = .ok h ∧ GraphView.IsIso (fun v => v) h.view g.view := by
  have hends : ∀ e ∈ edges, e.source < g.labels.length ∧ e.target < g.labels.length := by
    intro e he
    obtain ⟨e', he', heq⟩ := List.mem_map.mp (hedges.mem_iff.mp (List.mem_map_of_mem he))
    have := g.endpoints_lt e' he'
    rw [Edge.bond, Edge.bond, Prod.mk.injEq, Sym2.eq_iff] at heq
    omega
  exact ⟨⟨g.labels, edges, hends⟩, ofParts_eq_ok_iff.mpr ⟨hends, rfl, rfl⟩,
    isIso_of_bonds_perm rfl hedges⟩

end Graph

end GraphGrammar
