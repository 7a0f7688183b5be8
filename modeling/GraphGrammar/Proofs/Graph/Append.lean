import GraphGrammar.Proofs.Graph.Isomorphism

/-!
# Two graphs side by side

When one graph is put behind another one, its nodes are counted from behind those of the first one,
and no edge joins a node of the one to a node of the other. The graphs may change places.

## Main definitions

* `GraphGrammar.Graph.crossed` — the numbers of the nodes after the graphs change places.

## Main results

* `GraphGrammar.Graph.labelsAmong_append_of_lt`, `GraphGrammar.Graph.labelsAmong_append_add` — the
  edges between nodes of one of the graphs.
* `GraphGrammar.Graph.isIso_append_comm` — the graphs may change places.
-/

namespace GraphGrammar

namespace Graph

variable {g h : Graph} {x y : Nat}

theorem labels_append (g h : Graph) : (g.append h).labels = g.labels ++ h.labels := rfl

theorem edges_append (g h : Graph) : (g.append h).edges =
    g.edges ++ h.edges.map (Edge.mapNodes (· + g.nodeCount)) := rfl

theorem nodeCount_append (g h : Graph) : (g.append h).nodeCount = g.nodeCount + h.nodeCount :=
  List.length_append

theorem add_lt_nodeCount_append (g : Graph) {h : Graph} (hx : x < h.nodeCount) :
    g.nodeCount + x < (g.append h).nodeCount :=
  nodeCount_append g h ▸ Nat.add_lt_add_left hx _

/-- The edges of the second graph join nodes that come after those of the first. -/
theorem nodeCount_le_of_mem {e : Edge} (he : e ∈ h.edges.map (Edge.mapNodes (· + g.nodeCount))) :
    g.nodeCount ≤ e.source ∧ g.nodeCount ≤ e.target := by
  obtain ⟨e, -, rfl⟩ := List.mem_map.mp he
  exact ⟨Nat.le_add_left .., Nat.le_add_left ..⟩

theorem labelsAmong_append_of_lt (hx : x < g.nodeCount) :
    labelsAmong (g.append h).edges x y = labelsAmong g.edges x y := by
  have hnew : labelsAmong (h.edges.map (Edge.mapNodes (· + g.nodeCount))) x y = [] :=
    labelsAmong_eq_nil fun e he => by
      have := nodeCount_le_of_mem he
      omega
  rw [append, labelsAmong_append, hnew, List.append_nil]

theorem labelsAmong_append_of_lt_of_le (hx : x < g.nodeCount) (hy : g.nodeCount ≤ y) :
    labelsAmong (g.append h).edges x y = [] := by
  rw [labelsAmong_append_of_lt hx, labelsAmong_eq_nil fun e he => ?_]
  have := g.endpoints_lt e he
  rw [← nodeCount] at this
  omega

theorem labelsAmong_append_add : labelsAmong (g.append h).edges (g.nodeCount + x)
    (g.nodeCount + y) = labelsAmong h.edges x y := by
  have hold : labelsAmong g.edges (g.nodeCount + x) (g.nodeCount + y) = [] :=
    labelsAmong_eq_nil fun e he => by
      have := g.endpoints_lt e he
      rw [← nodeCount] at this
      omega
  rw [append, labelsAmong_append, hold, List.nil_append, Nat.add_comm _ x, Nat.add_comm _ y]
  exact labelsAmong_mapNodes (p := fun _ => True) (fun _ _ heq => Nat.add_right_cancel heq)
    (fun _ _ => ⟨trivial, trivial⟩) trivial trivial

/-- The number of a node of two graphs side by side when they change places. The graph that was
first has `q` nodes, the other one `n`. -/
def crossed (n q v : Nat) : Nat := if v < q then n + v else v - q

theorem crossed_of_lt {n q v : Nat} (hv : v < q) : crossed n q v = n + v := if_pos hv

theorem crossed_add (n q v : Nat) : crossed n q (q + v) = v := by
  rw [crossed, if_neg (by omega), Nat.add_sub_cancel_left]

/-- **Two graphs side by side** may change places. -/
theorem isIso_append_comm (g h : Graph) :
    GraphView.IsIso (crossed g.nodeCount h.nodeCount) (h.append g).view (g.append h).view := by
  have hcount : (h.append g).nodeCount = h.nodeCount + g.nodeCount := nodeCount_append h g
  have hcount' : (g.append h).nodeCount = g.nodeCount + h.nodeCount := nodeCount_append g h
  refine isIso_view_iff.mpr ⟨by omega, fun {v} hv => ?_, fun {u v} hu hv heq => ?_,
    fun {v} hv => ?_, ?_⟩
  · rw [crossed]
    split <;> omega
  · rw [crossed, crossed] at heq
    split_ifs at heq <;> omega
  · rw [view_label, view_label, List.getD_eq_getElem?_getD, List.getD_eq_getElem?_getD,
      labels_append, labels_append]
    rcases Nat.lt_or_ge v h.nodeCount with hlt | hge
    · rw [crossed_of_lt hlt, List.getElem?_append_left hlt, nodeCount,
        List.getElem?_append_right (Nat.le_add_right ..), Nat.add_sub_cancel_left]
    · obtain ⟨u, rfl⟩ := Nat.exists_eq_add_of_le hge
      have hu : u < g.labels.length := by
        have hlt : h.nodeCount + u < h.nodeCount + g.nodeCount := hcount ▸ hv
        exact Nat.lt_of_add_lt_add_left hlt
      rw [crossed_add, List.getElem?_append_left hu, nodeCount,
        List.getElem?_append_right (Nat.le_add_right ..), Nat.add_sub_cancel_left]
  · have hfirst : h.edges.map (fun e => e.bond.map (crossed g.nodeCount h.nodeCount)) =
        (h.edges.map (Edge.mapNodes (· + g.nodeCount))).map Edge.bond := by
      rw [List.map_map]
      refine List.map_congr_left fun e he => ?_
      obtain ⟨hs, ht⟩ : e.source < h.nodeCount ∧ e.target < h.nodeCount := h.endpoints_lt e he
      simp only [Function.comp_apply, Edge.bond, Edge.mapNodes, Bond.map_mk, crossed_of_lt hs,
        crossed_of_lt ht, Nat.add_comm g.nodeCount]
    have hsecond : (g.edges.map (Edge.mapNodes (· + h.nodeCount))).map
        (fun e => e.bond.map (crossed g.nodeCount h.nodeCount)) = g.edges.map Edge.bond := by
      rw [List.map_map]
      refine List.map_congr_left fun e _ => ?_
      simp only [Function.comp_apply, Edge.bond, Edge.mapNodes, Bond.map_mk,
        Nat.add_comm _ h.nodeCount, crossed_add]
    rw [edges_append, edges_append, List.map_append, List.map_append, hfirst, hsecond]
    exact List.perm_append_comm

end Graph

end GraphGrammar
