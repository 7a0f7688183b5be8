import GraphGrammar.Proofs.Arena.Spread
import GraphGrammar.Proofs.Rewrite.Applicable
import GraphGrammar.Proofs.Rewrite.Compaction

/-!
# The sides of a rule and the slots of its nodes

The nodes of a side are numbered by their ranks among all nodes of the rule, so that a side is what
remains when the rule is compacted. In a host the edges of a side lie between the slots of their
endpoints, and at the end of a step every node of the rule has a slot, or had one.

## Main definitions

* `GraphGrammar.RuleEdge.toEdge`, `laid`, `bondAt` — an edge of a rule between rule nodes and
  between their slots.

## Main results

* `GraphGrammar.Rule.compactOf_sideGraph` — a side is a compaction of the rule.
* `GraphGrammar.Rule.Placed.labelsAmong_laid` — the edges of the left side between two slots.
-/

namespace GraphGrammar

/-- An edge of a rule as an edge between rule nodes. -/
def RuleEdge.toEdge (e : RuleEdge) : Edge := ⟨e.source, e.target, e.label⟩

/-- An edge of a rule between the slots of its endpoints. -/
def RuleEdge.laid (image : Images) (e : RuleEdge) : Edge := e.toEdge.mapNodes image.slot

/-- An edge of a rule between the slots of its endpoints, without direction. -/
def RuleEdge.bondAt (image : Images) (e : RuleEdge) : Bond := (e.laid image).bond

namespace Rule

variable {r : Rule} {image : Images} {n : Nat}

/-! ### A side as a compaction of the rule -/

/-- The number of a node on a side is how many nodes before it are on the side. -/
theorem localNumber?_eq_rank {s : Side} {v : Nat} (h : r.isOn s v = true) :
    r.localNumber? s v = some (rank (r.isOn s) v) :=
  localNumber?_eq_some_iff.mpr (getElem?_rank h (lt_of_isOn h))

/-- **A side of a consistent rule** is what remains of the rule on this side. -/
theorem compactOf_sideGraph (hr : r.isConsistent = true) (s : Side) :
    (r.sideGraph s).CompactOf r.nodes.length (r.isOn s) (r.labelOn s)
      ((r.edges.filter fun e => s.hasEdge e.role).map RuleEdge.toEdge) where
  labels_eq := r.labels_sideGraph s
  edges_eq := by
    rw [sideGraph, List.map_map, ← List.filterMap_eq_map', List.filterMap_filter]
    refine List.filterMap_congr fun e he => ?_
    rw [sideEdge?]
    split
    · next hs =>
      obtain ⟨hsource, htarget⟩ := hasNode_of_hasEdge hr he hs
      rw [localNumber?_eq_rank (isOn_eq_true_iff.mpr hsource),
        localNumber?_eq_rank (isOn_eq_true_iff.mpr htarget)]
      rfl
    · rfl
  kept e' he' v hv := by
    obtain ⟨e, he, rfl⟩ := List.mem_map.mp he'
    obtain ⟨he, hs⟩ := List.mem_filter.mp he
    obtain ⟨hsource, htarget⟩ := hasNode_of_hasEdge hr he hs
    have hon : r.isOn s v = true := by
      rcases hv with rfl | rfl
      · exact isOn_eq_true_iff.mpr hsource
      · exact isOn_eq_true_iff.mpr htarget
    exact ⟨lt_of_isOn hon, hon⟩

/-! ### The left side between its slots -/

theorem labelsAmong_leftEdges (r : Rule) (a b : Nat) :
    labelsAmong (r.leftEdges.map RuleEdge.toEdge) a b = r.leftLabels a b := by
  rw [labelsAmong, List.filter_map, List.map_map, leftLabels]
  refine congrArg (List.map _) (List.filter_congr fun e _ => ?_)
  rw [Bool.eq_iff_iff, Function.comp_apply, Edge.connects_iff, decide_eq_true_eq]
  rfl

/-- Between the slots of two rule nodes the edges of the left side are those between the nodes. -/
theorem Placed.labelsAmong_laid (h : r.Placed image n) (hr : r.isConsistent = true) {a b x y : Nat}
    (hx : image.slot? a = some x) (hy : image.slot? b = some y) :
    labelsAmong (r.leftEdges.map (RuleEdge.laid image)) x y = r.leftLabels a b := by
  rw [← Images.slot_of_slot? hx, ← Images.slot_of_slot? hy, ← r.labelsAmong_leftEdges]
  have hlaid : r.leftEdges.map (RuleEdge.laid image) =
      (r.leftEdges.map RuleEdge.toEdge).map (Edge.mapNodes image.slot) := (List.map_map ..).symm
  rw [hlaid]
  refine labelsAmong_mapNodes (p := fun v => ∃ s, image.slot? v = some s) ?_ ?_ ⟨x, hx⟩ ⟨y, hy⟩
  · rintro u v ⟨s, hu⟩ ⟨s', hv⟩ heq
    rw [Images.slot_of_slot? hu, Images.slot_of_slot? hv] at heq
    exact h.inj hu (heq ▸ hv)
  · intro e' he'
    obtain ⟨e, he, rfl⟩ := List.mem_map.mp he'
    obtain ⟨⟨hs, -⟩, ht, -⟩ := h.slot?_of_mem_leftEdges hr he
    exact ⟨⟨_, hs⟩, _, ht⟩

/-! ### Nodes of one side -/

theorem isRightOnly_eq_true_iff {v : Nat} :
    r.isRightOnly v = true ↔ r.roleOf v = some .rightOnly := beq_iff_eq

/-- A node of a rule is on the left side or right-only. -/
theorem isRightOnly_eq_not_isOn {v : Nat} (hv : v < r.nodes.length) :
    r.isRightOnly v = !r.isOn .left v := by
  rw [isRightOnly, isOn, roleOf_of_lt hv]
  cases r.nodes[v].role <;> rfl

end Rule

end GraphGrammar
