import GraphGrammar.Proofs.Matching.Naturality
import GraphGrammar.Proofs.Rewrite.Occurrence
import GraphGrammar.Proofs.Rewrite.Removed

/-!
# Where a rule can be applied

At a match of the left side, the edges of the left side between any two rule nodes find edges of the
target. This is all that a step needs: in every host in which they find edges, every phase succeeds.

## Main definitions

* `GraphGrammar.Rule.leftLabels` — the labels of the edges of the left side between two rule nodes.
* `GraphGrammar.Rule.Applicable` — a mapping at which the edges of the left side find edges.

## Main results

* `GraphGrammar.Rule.applicable_of_isMatch` — matches are such mappings.
* `GraphGrammar.Rule.exists_rework` — the phases of a step succeed.
-/

namespace GraphGrammar

namespace Rule

variable {r : Rule} {t : GraphView} {mapping : List Nat}

/-- The labels of the edges of the left side between two rule nodes. -/
def leftLabels (r : Rule) (a b : Nat) : List String :=
  (r.leftEdges.filter fun e => s(e.source, e.target) = s(a, b)).map (·.label)

/-- A mapping of the left side to distinct nodes of the target at which the edges of the left side
find edges of the target. -/
structure Applicable (r : Rule) (t : GraphView) (mapping : List Nat) : Prop where
  /-- The nodes of the left side are mapped to distinct nodes. -/
  occurrence : r.Occurrence t mapping
  /-- Between the images of two nodes there are enough edges. -/
  fits : ∀ {a b u v : Nat}, r.imageOf mapping a = some u → r.imageOf mapping b = some v →
    labelsFit r.wildcard (r.leftLabels a b) (t.labelsBetween u v) = true

/-! ### The left side as a pattern -/

/-- An edge of the left side has its endpoints there. -/
theorem exists_sideEdge (hr : r.isConsistent = true) {e : RuleEdge} (he : e ∈ r.leftEdges) :
    ∃ i j : Nat, (r.sideNodes .left)[i]? = some e.source ∧
      (r.sideNodes .left)[j]? = some e.target ∧ r.sideEdge? .left e = some ⟨i, j, e.label⟩ := by
  obtain ⟨hmem, hleft⟩ := List.mem_filter.mp he
  have hside : Side.left.hasEdge e.role = true := hleft
  obtain ⟨hsource, htarget⟩ := hasNode_of_hasEdge hr hmem hside
  obtain ⟨i, hi⟩ := List.mem_iff_getElem?.mp (mem_sideNodes.mpr hsource)
  obtain ⟨j, hj⟩ := List.mem_iff_getElem?.mp (mem_sideNodes.mpr htarget)
  refine ⟨i, j, hi, hj, ?_⟩
  rw [sideEdge?, if_pos hside, localNumber?_eq_some_iff.mpr hi, localNumber?_eq_some_iff.mpr hj]
  rfl

theorem labelsBetween_leftPattern (hr : r.isConsistent = true) {i j a b : Nat}
    (hi : (r.sideNodes .left)[i]? = some a) (hj : (r.sideNodes .left)[j]? = some b) :
    r.leftPattern.graph.labelsBetween i j = r.leftLabels a b := by
  have hedges : (r.sideGraph .left).edges = r.leftEdges.filterMap (r.sideEdge? .left) := by
    rw [sideGraph, leftEdges, List.filterMap_filter]
    refine List.filterMap_congr fun e _ => ?_
    cases hside : e.role.onLeft with
    | true => rfl
    | false => rw [sideEdge?, Side.hasEdge, hside, if_neg Bool.false_ne_true]; rfl
  rw [leftPattern, Graph.labelsBetween_view, hedges, labelsAmong, List.filter_filterMap,
    List.map_filterMap, leftLabels, ← List.filterMap_eq_map', List.filterMap_filter]
  refine List.filterMap_congr fun e he => ?_
  obtain ⟨i', j', hi', hj', hside⟩ := exists_sideEdge hr he
  have hiff : ∀ {i j a b : Nat}, (r.sideNodes .left)[i]? = some a →
      (r.sideNodes .left)[j]? = some b → (i = j ↔ a = b) := by
    intro i j a b hi hj
    refine ⟨fun heq => Option.some.inj (hi.symm.trans (heq ▸ hj)), fun heq => ?_⟩
    exact (List.getElem?_inj (List.getElem?_eq_some_iff.mp hi).1 (nodup_sideNodes r .left)).mp
      (hi.trans (heq ▸ hj.symm))
  have hconnects : (Edge.mk i' j' e.label).connects i j =
      decide (s(e.source, e.target) = s(a, b)) := by
    rw [Bool.eq_iff_iff, Edge.connects_iff, decide_eq_true_eq, Sym2.eq_iff, Sym2.eq_iff,
      hiff hi' hi, hiff hj' hj, hiff hi' hj, hiff hj' hi]
  rw [hside]
  simp only [Option.filter, hconnects]
  split <;> simp_all

/-- **Matches of the left side** are mappings at which the rule can be applied. -/
theorem applicable_of_isMatch (hr : r.isConsistent = true) (h : r.leftPattern.IsMatch t mapping) :
    r.Applicable t mapping where
  occurrence := ⟨h.length_eq.trans (nodeCount_leftPattern r), h.lt_nodeCount, h.nodup⟩
  fits {a b u v} ha hb := by
    obtain ⟨i, hi, hu⟩ := imageOf_eq_some_iff.mp ha
    obtain ⟨j, hj, hv⟩ := imageOf_eq_some_iff.mp hb
    rw [← labelsBetween_leftPattern hr hi hj]
    exact assignable_iff_labelsFit.mp (h.assignable hu hv)

/-! ### Everybody gets an edge -/

theorem demands_perm_leftLabels (r : Rule) (a b : Nat) :
    ((r.demands a b).map Prod.fst).Perm (r.leftLabels a b) := by
  rw [demands, List.map_map, leftLabels]
  exact (List.mergeSort_perm _ _).map _

/-- In their turns, edges with literal labels come first. -/
theorem pairwise_turn (r : Rule) (edges : List RuleEdge) :
    ((edges.mergeSort fun e e' => r.turn e ≤ r.turn e').map (·.label)).Pairwise
      fun l l' => r.wildcard = some l → r.wildcard = some l' := by
  let servedFirst : RuleEdge → RuleEdge → Bool := fun e e' => decide (r.turn e ≤ r.turn e')
  have hsorted : (edges.mergeSort servedFirst).Pairwise fun e e' => servedFirst e e' = true := by
    refine List.pairwise_mergeSort (fun e e' e'' h h' => ?_) (fun e e' => ?_) _
    · simp only [servedFirst, decide_eq_true_eq] at h h' ⊢
      omega
    · simp only [servedFirst, Bool.or_eq_true, decide_eq_true_eq]
      omega
  rw [List.pairwise_map]
  refine hsorted.imp fun {e e'} hle (hwild : r.wildcard = some e.label) => ?_
  by_contra hliteral
  have hliteral' : ¬r.wildcard = some e'.label := hliteral
  simp only [servedFirst, turn, beq_iff_eq, hwild, if_true, decide_eq_true_eq] at hle hliteral'
  rw [if_neg hliteral'] at hle
  split at hle <;> split at hle <;> omega

/-- **Serving edges in their turns** leaves none without an edge if their labels fit. -/
theorem isSome_choose_fitsSlot (r : Rule) (edges : List (Option Edge)) (pair : Nat × Nat)
    (requests : List RuleEdge) :
    (choose (r.fitsSlot edges) (requests.mergeSort fun e e' => r.turn e ≤ r.turn e')
      (slotsAt edges pair)).isSome = labelsFit r.wildcard (requests.map (·.label))
        (labelsAmong (present edges) pair.1 pair.2) := by
  have hfits : ∀ e, ∀ i ∈ slotsAt edges pair, r.fitsSlot edges e i =
      labelFits r.wildcard e.label (((edges[i]?).join.map (·.label)).getD "") := by
    intro e i hi
    obtain ⟨found, hfound, -⟩ := mem_slotsWhere.mp hi
    rw [fitsSlot, hfound]
    rfl
  have hperm := (List.mergeSort_perm requests fun e e' => r.turn e ≤ r.turn e').map (·.label)
  rw [← labelsFit_congr hperm (List.Perm.refl _), Bool.eq_iff_iff,
    ← isSome_choose_iff (r.pairwise_turn requests), choose_map_requests, ← map_slotsAt, choose_map,
    Option.isSome_map, choose_congr hfits]

variable {image : Images} {g : Graph}

/-- Between the slots of two rule nodes lie the edges of the left side between them. -/
theorem Placed.labels_placedAt_perm {n : Nat} (h : r.Placed image n) (hr : r.isConsistent = true)
    {a b x y : Nat} (hx : image.slot? a = some x) (hy : image.slot? b = some y) :
    ((placedAt (r.placedEdges image) (min x y, max x y)).map (·.label)).Perm
      (r.leftLabels a b) := by
  have hdemands := congrArg (List.map Prod.fst) (h.map_demand_edgesAt hr hx hy)
  rw [List.map_map] at hdemands
  exact ((List.mergeSort_perm _ _).map _).symm.trans
    ((List.Perm.of_eq hdemands).trans (r.demands_perm_leftLabels a b))

/-- Everybody gets an edge between the slots of two rule nodes if there are enough edges. -/
theorem Placed.isSome_choicesAt (h : r.Placed image g.nodeCount) (hr : r.isConsistent = true)
    {a b x y : Nat} (hx : image.slot? a = some x) (hy : image.slot? b = some y) :
    (r.choicesAt image (g.edges.map some) (min x y, max x y)).isSome =
      labelsFit r.wildcard (r.leftLabels a b) (labelsAmong g.edges x y) := by
  have hserved := r.isSome_choose_fitsSlot (g.edges.map some) (min x y, max x y)
    (placedAt (r.placedEdges image) (min x y, max x y))
  rw [labelsFit_congr (h.labels_placedAt_perm hr hx hy) (List.Perm.refl _), present_map_some,
    labelsAmong_min_max] at hserved
  rw [choicesAt, Option.isSome_map]
  exact hserved

/-- **Everybody gets an edge** in a host with enough edges between the slots of any two nodes. -/
theorem Placed.exists_choices (h : r.Placed image g.nodeCount) (hr : r.isConsistent = true)
    (hfits : ∀ {a b x y : Nat}, image.slot? a = some x → image.slot? b = some y →
      labelsFit r.wildcard (r.leftLabels a b) (labelsAmong g.edges x y) = true) :
    ∃ choices, r.choices image (g.edges.map some) = some choices := by
  refine ⟨_, choices_eq_some_iff.mpr ⟨fun e he => ?_, rfl⟩⟩
  obtain ⟨⟨hs, -⟩, ht, -⟩ := h.slot?_of_mem_leftEdges hr he
  exact (h.isSome_choicesAt hr hs ht).trans (hfits hs ht)

/-- **The phases of a step** succeed. -/
theorem Placed.exists_rework (h : r.Placed image g.nodeCount) (hr : r.isConsistent = true)
    (mode : Relabeling) (hfits : ∀ {a b x y : Nat}, image.slot? a = some x →
      image.slot? b = some y →
      labelsFit r.wildcard (r.leftLabels a b) (labelsAmong g.edges x y) = true) :
    ∃ choices result, r.choices image (g.edges.map some) = some choices ∧
      r.rework mode image (Arena.host g) = .ok result := by
  obtain ⟨choices, hchoices⟩ := h.exists_choices hr hfits
  obtain ⟨result, hresult, -⟩ := (rework_eq hr mode h).1 choices hchoices
  exact ⟨choices, result, hchoices, hresult⟩

end Rule

end GraphGrammar
