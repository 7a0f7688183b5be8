import GraphGrammar.Proofs.Arena.Hosts
import GraphGrammar.Proofs.Graph.Isomorphism

/-!
# Edges listed at their smaller endpoints

A graph that is read and written again lists its edges by their smaller endpoints. A graph whose
edges are listed so already does not change. Parts of graphs that are read are such graphs, and so
are parts put behind one another.

## Main definitions

* `GraphGrammar.Graph.IsListed` — the edges are listed by their smaller endpoints.

## Main results

* `GraphGrammar.Graph.IsListed.toGraph_view` — such a graph does not change.
* `GraphGrammar.GraphView.isListed_part`, `GraphGrammar.Graph.IsListed.append` — parts of graphs.
-/

namespace GraphGrammar

/-- Every edge starts at its smaller endpoint, and the edges are listed by these. -/
structure Graph.IsListed (g : Graph) : Prop where
  /-- The first endpoint is the smaller one. -/
  source_le : ∀ e ∈ g.edges, e.source ≤ e.target
  /-- First endpoints ascend. -/
  sorted : g.edges.Pairwise fun e e' => e.source ≤ e'.source

namespace Graph

variable {g h : Graph}

theorem isListed_empty : empty.IsListed := ⟨nofun, List.Pairwise.nil⟩

namespace IsListed

/-- The edges that are listed at a node are those that start there. -/
theorem edgesAt_eq (hg : g.IsListed) (v : Nat) : ((g.view.incident v).filterMap fun e =>
      if v ≤ e.node then some (⟨v, e.node, e.label⟩ : Edge) else none) =
    g.edges.filter fun e => e.source = v := by
  rw [view_incident, List.filterMap_filterMap, ← List.filterMap_eq_filter]
  refine List.filterMap_congr fun e he => ?_
  have hle := hg.source_le e he
  obtain ⟨source, target, label⟩ := e
  dsimp only at hle
  by_cases hs : source = v
  · subst hs
    simp [Edge.seenFrom, Edge.touches, Edge.other, hle]
  · by_cases ht : target = v
    · have hlt : ¬v ≤ source := by omega
      simp [Edge.seenFrom, Edge.touches, Edge.other, Option.guard, hs, ht, hlt]
    · simp [Edge.seenFrom, Edge.touches, Option.guard, hs, ht]

/-- **A graph whose edges are listed by their smaller endpoints** is written as it is read. -/
theorem toGraph_view (hg : g.IsListed) : g.view.toGraph = g := by
  refine eq_of_parts g.map_label_range ?_
  have hedges : g.view.edgeList =
      (List.range g.labels.length).flatMap fun v => g.edges.filter fun e => e.source = v :=
    List.flatMap_congr fun v _ => hg.edgesAt_eq v
  refine hedges.trans ((flatMap_range_filter hg.sorted _).trans ?_)
  exact List.filter_eq_self.mpr fun e he => decide_eq_true (g.endpoints_lt e he).1

/-- **Graphs put behind one another.** -/
theorem append (hg : g.IsListed) (hh : h.IsListed) : (g.append h).IsListed where
  source_le e he := by
    rcases List.mem_append.mp he with he | he
    · exact hg.source_le e he
    · obtain ⟨e, hmem, rfl⟩ := List.mem_map.mp he
      exact Nat.add_le_add_right (hh.source_le e hmem) _
  sorted := by
    refine List.pairwise_append.mpr ⟨hg.sorted, ?_, fun e he e' he' => ?_⟩
    · rw [List.pairwise_map]
      exact hh.sorted.imp fun hle => Nat.add_le_add_right hle _
    · obtain ⟨e', -, rfl⟩ := List.mem_map.mp he'
      exact Nat.le_trans (Nat.le_of_lt (g.endpoints_lt e he).1) (Nat.le_add_left ..)

end IsListed

end Graph

namespace GraphView

variable (t : GraphView)

theorem pairwise_edgeList : t.edgeList.Pairwise fun e e' => e.source ≤ e'.source := by
  have hsource : ∀ v, ∀ e ∈ (t.incident v).filterMap fun i =>
      if v ≤ i.node then some (⟨v, i.node, i.label⟩ : Edge) else none, e.source = v := by
    intro v e he
    obtain ⟨i, -, hie⟩ := List.mem_filterMap.mp he
    split at hie
    · cases hie
      rfl
    · cases hie
  rw [edgeList, List.pairwise_flatMap]
  refine ⟨fun v _ => ?_, ?_⟩
  · exact List.pairwise_of_forall_mem_list fun e he e' he' =>
      Nat.le_of_eq ((hsource v e he).trans (hsource v e' he').symm)
  · refine List.pairwise_lt_range.imp fun {u v} hlt e he e' he' => ?_
    rw [hsource u e he, hsource v e' he']
    exact Nat.le_of_lt hlt

/-- **A part of a graph** lists its edges by their smaller endpoints. -/
theorem isListed_part (keep : Nat → Bool) : (t.part keep).IsListed where
  source_le e he := by
    obtain ⟨e, hmem, rfl⟩ := List.mem_map.mp he
    exact rank_mono keep (mem_edgeList_lt (List.mem_of_mem_filter hmem)).2.2
  sorted := by
    rw [part, List.pairwise_map]
    exact (t.pairwise_edgeList.filter _).imp fun hle => rank_mono keep hle

end GraphView

end GraphGrammar
