import GraphGrammar.Proofs.Matching.Ordered
import GraphGrammar.Proofs.Rewrite.Copied

/-!
# When a step succeeds

A step of a consistent rule with valid settings succeeds exactly at the mappings of the left side to
distinct nodes between which its edges find edges of the target, with either way of copying. At such
a mapping no phase fails. In the other direction, the edges of the left side can only be placed if
all their endpoints have slots, also when every component of the left side acts on a copy of its
own; and they are only all served if there are enough edges between these slots, which were copied
from the target.

## Main results

* `GraphGrammar.Rule.Slotted.placed` — all nodes have slots if the endpoints of all edges have.
* `GraphGrammar.Rule.applicable_of_rewrite_eq_ok` — where a step succeeded, the edges find edges.
* `GraphGrammar.applyRule_succeeds_iff` — when a step succeeds.
-/

namespace GraphGrammar

namespace Rule

variable {r : Rule} {t : GraphView} {mapping : List Nat}

/-! ### Slots where the rule may not be applicable -/

/-- **Copying the target** gives slots to some nodes of every component of the left side. -/
theorem exists_slotted (h : r.Occurrence t mapping) (config : RewriteConfig) :
    ∃ g spots, (r.copyTarget config t mapping).1 = Arena.host g ∧
      r.Slotted config.addEachComponent t mapping g (r.copyTarget config t mapping).2 spots := by
  rw [copyTarget]
  cases config.addEachComponent with
  | true => exact ⟨_, _, r.copyComponents_fst t mapping, slotted_copyComponents h⟩
  | false => exact ⟨_, _, Arena.ofGraph_eq_host t, (copied_copyWhole h).slotted h⟩

/-- A node of the left side that is joined there is an endpoint of an edge. -/
theorem exists_leftEdge_of_hasEdge (hr : r.isConsistent = true) {v i j : Nat}
    (hi : (r.sideNodes .left)[i]? = some v)
    (hedge : (r.sideGraph .left).view.hasEdge i j = true) :
    ∃ e ∈ r.leftEdges, e.source = v ∨ e.target = v := by
  have hjlt := (GraphView.lt_of_hasEdge hedge).2
  have hj := List.getElem?_eq_getElem
    (nodeCount_leftPattern r ▸ hjlt : j < (r.sideNodes .left).length)
  rw [← Bool.not_eq_false, ← GraphView.labelsBetween_eq_nil_iff] at hedge
  obtain ⟨l, hl⟩ := List.exists_mem_of_ne_nil _ hedge
  have hlabel : l ∈ r.leftLabels v _ := (labelsBetween_leftPattern hr hi hj) ▸ hl
  obtain ⟨e, he, -⟩ := List.mem_map.mp hlabel
  obtain ⟨he, hends⟩ := List.mem_filter.mp he
  rw [decide_eq_true_eq, Sym2.eq_iff] at hends
  exact ⟨e, he, by omega⟩

namespace Slotted

variable {each : Bool} {g : Graph} {image : Images} {spots : List (Nat × Nat)}
  (h : r.Slotted each t mapping g image spots)

include h

/-- **All nodes of the left side** have slots if the endpoints of its edges have: from the one that
has a slot, edges lead to the others of its component. -/
theorem placed (hr : r.isConsistent = true) (ho : r.Occurrence t mapping)
    (hedges : ∀ e ∈ r.leftEdges, (∃ s, image.slot? e.source = some s) ∧
      ∃ s, image.slot? e.target = some s) : r.Placed image g.nodeCount := by
  refine h.placed_of_exists_slot ho fun {v u} hu => ?_
  obtain ⟨i, hi, -⟩ := imageOf_eq_some_iff.mp hu
  obtain ⟨w, j, s, hj, hlinked, hs⟩ := h.anchored hi
  rcases Relation.ReflTransGen.cases_head hlinked with rfl | ⟨k, hedge, -⟩
  · rw [Option.some.inj (hi.symm.trans hj)]
    exact ⟨s, hs⟩
  · obtain ⟨e, he, rfl | rfl⟩ := exists_leftEdge_of_hasEdge hr hi hedge
    · exact (hedges e he).1
    · exact (hedges e he).2

/-- Edges between slots of joined nodes were copied from the target. -/
theorem labelsFit_of_slots (hr : r.isConsistent = true) (hplaced : r.Placed image g.nodeCount)
    (hfits : ∀ {a b x y : Nat}, image.slot? a = some x → image.slot? b = some y →
      labelsFit r.wildcard (r.leftLabels a b) (labelsAmong g.edges x y) = true)
    {a b u v : Nat} (hu : r.imageOf mapping a = some u) (hv : r.imageOf mapping b = some v) :
    labelsFit r.wildcard (r.leftLabels a b) (t.labelsBetween u v) = true := by
  by_cases hlabels : r.leftLabels a b = []
  · rw [hlabels]
    rfl
  obtain ⟨i, hi, -⟩ := imageOf_eq_some_iff.mp hu
  obtain ⟨j, hj, -⟩ := imageOf_eq_some_iff.mp hv
  have hcopy := copyNumber_eq_of_leftLabels hr each hi hj hlabels
  have hspot : ∀ {a u}, r.imageOf mapping a = some u → ∃ x, image.slot? a = some x ∧
      spots[x]? = some (r.copyNumber each a, u) := by
    intro a u hu
    obtain ⟨role, hrole, hleft⟩ := onLeft_of_imageOf hu
    obtain ⟨x, -, hx⟩ := hplaced.exists_slot hrole hleft
    obtain ⟨u', hu', hspot⟩ := h.slot_iff.mp hx
    obtain rfl := Option.some.inj (hu.symm.trans hu')
    exact ⟨x, hx, hspot⟩
  obtain ⟨x, hx, hxu⟩ := hspot hu
  obtain ⟨y, hy, hyv⟩ := hspot hv
  rw [← labelsFit_congr (List.Perm.refl _) (t.labelsAmong_edgeList u v)]
  have hhost := hfits hx hy
  rwa [h.spreads.labels_eq hxu hyv, if_pos hcopy] at hhost

end Slotted

/-- **Where a step succeeded**, the edges of the left side find edges of the target. -/
theorem applicable_of_rewrite_eq_ok (hr : r.isConsistent = true) {config : RewriteConfig}
    {result : Graph} (h : r.rewrite config t mapping = .ok result) : r.Applicable t mapping := by
  obtain ⟨hcheck, hrework⟩ := rewrite_eq_ok_iff.mp h
  have ho := checkOccurrence_eq_ok_iff.mp hcheck
  obtain ⟨g, spots, hhost, hslotted⟩ := exists_slotted ho config
  rw [hhost] at hrework
  have hedges : ∀ e ∈ r.leftEdges,
      (∃ s, (r.copyTarget config t mapping).2.slot? e.source = some s) ∧
        ∃ s, (r.copyTarget config t mapping).2.slot? e.target = some s := by
    obtain ⟨_, -, hrest⟩ := bind_eq_ok_iff.mp hrework
    obtain ⟨_, hdelete, -⟩ := bind_eq_ok_iff.mp hrest
    obtain ⟨placed, hplace, -⟩ := bind_eq_ok_iff.mp hdelete
    exact fun e he => exists_slots_of_placeLeftEdges_eq_ok hplace he
  have hplaced := hslotted.placed hr ho hedges
  refine ⟨ho, fun hu hv => hslotted.labelsFit_of_slots hr hplaced (fun hx hy => ?_) hu hv⟩
  rw [← hplaced.isSome_choicesAt hr hx hy]
  obtain ⟨choices, hchoices⟩ := hplaced.exists_choices_of_rework hr hrework
  exact isSome_choicesAt hchoices _

theorem applicable_iff : r.Applicable t mapping ↔
    mapping.length = (r.sideNodes .left).length ∧ (∀ u ∈ mapping, u < t.nodeCount) ∧
      mapping.Nodup ∧ ∀ a b u v, r.imageOf mapping a = some u → r.imageOf mapping b = some v →
        Assignable r.wildcard (r.leftLabels a b) (t.labelsBetween u v) := by
  constructor
  · intro h
    exact ⟨h.occurrence.length_eq, h.occurrence.lt_nodeCount, h.occurrence.nodup,
      fun a b u v hu hv => assignable_iff_labelsFit.mpr (h.fits hu hv)⟩
  · rintro ⟨hlength, hlt, hnodup, hassignable⟩
    exact ⟨⟨hlength, hlt, hnodup⟩,
      fun hu hv => assignable_iff_labelsFit.mp (hassignable _ _ _ _ hu hv)⟩

end Rule

/-- **When a step succeeds.** Whichever way the target is copied, a step succeeds exactly if the
rule is consistent, the settings are valid, the mapping sends the nodes of the left side to distinct
nodes of the target, and between any two of these nodes, and around each, the edges of the left side
can be given edges of their own with labels that they admit. This is so at everything that a search
for the left side reports. -/
theorem applyRule_succeeds_iff (r : Rule) (config : RewriteConfig) (t : GraphView) :
    (∀ mapping, (∃ g, applyRule r config t mapping = .ok g) ↔
      r.isConsistent = true ∧ config.validate = .ok () ∧
        mapping.length = (r.sideNodes .left).length ∧ (∀ u ∈ mapping, u < t.nodeCount) ∧
        mapping.Nodup ∧ ∀ a b u v, r.imageOf mapping a = some u → r.imageOf mapping b = some v →
          Assignable r.wildcard (r.leftLabels a b) (t.labelsBetween u v)) ∧
    ∀ maxHits order, ∀ hit ∈ (searchOne maxHits storeHits r.leftPattern order t []).state,
      (∃ g, applyRule r config t hit.occurrence.images = .ok g) ↔
        r.isConsistent = true ∧ config.validate = .ok () := by
  have hsucceeds : ∀ mapping, (∃ g, applyRule r config t mapping = .ok g) ↔
      r.isConsistent = true ∧ config.validate = .ok () ∧ r.Applicable t mapping := by
    intro mapping
    constructor
    · rintro ⟨g, hg⟩
      obtain ⟨hr, hconfig, hresult⟩ := applyRule_eq_ok_iff.mp hg
      exact ⟨hr, hconfig, Rule.applicable_of_rewrite_eq_ok hr hresult⟩
    · rintro ⟨hr, hconfig, happlicable⟩
      obtain ⟨g, hg⟩ := Rule.exists_rewrite hr happlicable config
      exact ⟨g, applyRule_eq_ok_iff.mpr ⟨hr, hconfig, hg⟩⟩
  refine ⟨fun mapping => ?_, fun maxHits order hit hhit => ?_⟩
  · rw [hsucceeds, Rule.applicable_iff]
  · rw [hsucceeds]
    refine and_congr_right fun hr => and_iff_left ?_
    exact Rule.applicable_of_isMatch hr
      (Pattern.isMatch_of_mem_searchOne r.inRange_leftPattern hhit)

/-- The rule that keeps two nodes `N` with an edge between them. -/
def Rule.bonded : Rule where
  id := some "bonded"
  nodes := [⟨.kept, "N", none⟩, ⟨.kept, "N", none⟩]
  edges := [⟨0, 1, .kept, "-"⟩]
  constraints := []
  directives := []
  wildcard := none

/-- Two nodes with an edge between them, and one without. -/
def Graph.bondAndNode : Graph where
  labels := ["N", "N", "N"]
  edges := [⟨0, 1, "-"⟩]
  endpoints_lt := by decide

/-- With a copy for every component of the left side, the step succeeds along the edge, and not
across the components of the target. -/
theorem applyRule_succeeds_iff_bonded :
    (∃ g, applyRule Rule.bonded ⟨true, .replace⟩ Graph.bondAndNode.view [0, 1] = .ok g) ∧
    ¬∃ g, applyRule Rule.bonded ⟨true, .replace⟩ Graph.bondAndNode.view [0, 2] = .ok g := by
  obtain ⟨hiff, hreported⟩ :=
    applyRule_succeeds_iff Rule.bonded ⟨true, .replace⟩ Graph.bondAndNode.view
  refine ⟨?_, fun hsucceeds => ?_⟩
  · exact (hreported 2 none ⟨0, ⟨[0, 1]⟩⟩ (by decide +kernel)).mpr ⟨by decide +kernel, rfl⟩
  · obtain ⟨-, -, -, -, -, hassignable⟩ := (hiff _).mp hsucceeds
    have hfit := assignable_iff_labelsFit.mp (hassignable 0 1 0 2 (by decide) (by decide))
    exact absurd hfit (by decide +kernel)

end GraphGrammar
