import GraphGrammar.Proofs.Rewrite.Removed
import GraphGrammar.Proofs.Rewrite.Twins

/-!
# Which edges correspond

In two hosts that correspond, the edges of the left side between corresponding slots ask for the
same labels. When only literal labels are taken away, the labels that are taken away are the same. A
left-only edge whose label is the wildcard takes what is left over, which depends on the order in
which the edges between its slots are served and on the order of the edges of the host there.

## Main results

* `GraphGrammar.Rule.Twins.untaken_perm` — the edges that are not taken away correspond.
-/

namespace GraphGrammar

namespace Rule

variable {r : Rule} {φ F : Nat → Nat} {image' image : Images} {g' g : Graph}

namespace Twins

variable (h : r.Twins φ F image' g' image g) (hr : r.isConsistent = true)

include h hr

/-- The slots of the endpoints of an edge of the left side correspond. -/
theorem slot_of_mem_leftEdges {e : RuleEdge} (he : e ∈ r.leftEdges) :
    (image'.slot? e.source = some (image'.slot e.source) ∧
      image.slot (φ e.source) = F (image'.slot e.source) ∧ image'.slot e.source < g'.nodeCount) ∧
    image'.slot? e.target = some (image'.slot e.target) ∧
      image.slot (φ e.target) = F (image'.slot e.target) ∧
      image'.slot e.target < g'.nodeCount := by
  obtain ⟨⟨hs, hslt⟩, ht, htlt⟩ := h.placed'.slot?_of_mem_leftEdges hr he
  have himage : ∀ {v s : Nat}, image'.slot? v = some s → image.slot (φ v) = F s := fun hv =>
    Images.slot_of_slot? (h.slot_eq hv)
  exact ⟨⟨hs, himage hs, hslt⟩, ht, himage ht, htlt⟩

/-- Between corresponding slots the same is asked for, up to the order. -/
theorem demand_perm {x y : Nat} (hx : x < g'.nodeCount) (hy : y < g'.nodeCount) :
    ((r.edgesAt image' (min x y, max x y)).map RuleEdge.demand).Perm
      ((r.edgesAt image (min (F x) (F y), max (F x) (F y))).map RuleEdge.demand) := by
  let between : Sym2 Nat × EdgeRole × String → Bool := fun b =>
    b.2.1.onLeft && decide (b.1.map image.slot = s(F x, F y))
  have hperm := (h.automorphism.edges_perm.filter between).map fun b => (b.2.2, b.2.1)
  have hleft : (r.edges.filter (between ∘ ruleBond φ)).map RuleEdge.demand =
      (r.leftEdges.filter fun e => pairOf image' e == (min x y, max x y)).map RuleEdge.demand := by
    rw [leftEdges, List.filter_filter]
    refine congrArg (List.map _) (List.filter_congr fun e he => ?_)
    rw [Bool.and_comm]
    cases hside : e.role.onLeft with
    | false => simp only [between, Function.comp_apply, ruleBond, hside, Bool.false_and]
    | true =>
      obtain ⟨⟨-, hs, hslt⟩, -, ht, htlt⟩ :=
        h.slot_of_mem_leftEdges hr (List.mem_filter.mpr ⟨he, hside⟩)
      have hF : ∀ {u v : Nat}, u < g'.nodeCount → v < g'.nodeCount → (F u = F v ↔ u = v) :=
        fun hu hv => ⟨h.isIso.inj hu hv, fun heq => heq ▸ rfl⟩
      simp only [between, Function.comp_apply, ruleBond, hside, Bool.true_and, Sym2.map_mk, hs, ht]
      rw [Bool.eq_iff_iff, beq_iff_eq, decide_eq_true_eq, pairOf_eq_iff, Sym2.eq_iff, Sym2.eq_iff,
        hF hslt hx, hF htlt hy, hF hslt hy, hF htlt hx]
  have hright : (r.edges.filter (between ∘ ruleBond fun v => v)).map RuleEdge.demand =
      (r.leftEdges.filter fun e =>
        pairOf image e == (min (F x) (F y), max (F x) (F y))).map RuleEdge.demand := by
    rw [leftEdges, List.filter_filter]
    refine congrArg (List.map _) (List.filter_congr fun e _ => ?_)
    rw [Bool.and_comm, Bool.eq_iff_iff, Bool.and_eq_true, beq_iff_eq, pairOf_eq_iff]
    simp only [between, Function.comp_apply, ruleBond, Sym2.map_mk, Bool.and_eq_true]
    exact and_congr_right fun _ => decide_eq_true_iff
  rw [List.filter_map, List.filter_map, List.map_map, List.map_map] at hperm
  have hperm' := (List.Perm.of_eq hleft.symm).trans (hperm.trans (List.Perm.of_eq hright))
  rw [edgesAt_eq, edgesAt_eq]
  exact ((List.mergeSort_perm _ _).map _).trans
    (hperm'.trans ((List.mergeSort_perm _ _).map _).symm)

variable {choices' choices : List (RuleEdge × Nat)}
  (hchoices' : r.choices image' (g'.edges.map some) = some choices')
  (hchoices : r.choices image (g.edges.map some) = some choices)
  (hwild : ∀ e ∈ r.edges, e.role = .leftOnly → r.wildcard = some e.label →
    (∀ labels, (r.takes e.source e.target labels).Perm
      (r.takes (φ e.source) (φ e.target) labels)) ∧
    labelsAmong g.edges (image.slot (φ e.source)) (image.slot (φ e.target)) =
      labelsAmong g'.edges (image'.slot e.source) (image'.slot e.target))

include hchoices' hchoices hwild

/-- **What is taken away** between corresponding slots is the same. -/
theorem removedLabels_perm {x y : Nat} (hx : x < g'.nodeCount) (hy : y < g'.nodeCount) :
    (r.removedLabels image' g' x y).Perm (r.removedLabels image g (F x) (F y)) := by
  have hdemand := h.demand_perm hr hx hy
  by_cases hliteral : ∀ e ∈ r.edgesAt image' (min x y, max x y), e.role = .leftOnly →
      r.wildcard ≠ some e.label
  · have hliteral' : ∀ e ∈ r.edgesAt image (min (F x) (F y), max (F x) (F y)),
        e.role = .leftOnly → r.wildcard ≠ some e.label := by
      intro e he hrole
      obtain ⟨e', he', heq⟩ := List.mem_map.mp (hdemand.mem_iff.mpr (List.mem_map_of_mem he))
      rw [RuleEdge.demand, RuleEdge.demand, Prod.mk.injEq] at heq
      exact heq.1 ▸ hliteral e' he' (heq.2.trans hrole)
    rw [removedLabels_of_literal (isSome_choicesAt hchoices' _) hliteral,
      removedLabels_of_literal (isSome_choicesAt hchoices _) hliteral']
    exact (hdemand.filter _).map _
  · push Not at hliteral
    obtain ⟨e, he, hrole, hlabel⟩ := hliteral
    obtain ⟨hleft, hpair⟩ := mem_edgesAt.mp he
    obtain ⟨⟨hs, hs', -⟩, ht, ht', -⟩ := h.slot_of_mem_leftEdges hr hleft
    obtain ⟨htakes, hlabels⟩ := hwild e (List.mem_of_mem_filter hleft) hrole hlabel
    have hsource := h.slot_eq hs
    have htarget := h.slot_eq ht
    have hperm : (r.removedLabels image' g' (image'.slot e.source) (image'.slot e.target)).Perm
        (r.removedLabels image g (F (image'.slot e.source)) (F (image'.slot e.target))) := by
      rw [h.placed'.removedLabels_eq hr hs ht, h.placed.removedLabels_eq hr hsource htarget,
        ← hs', ← ht', hlabels]
      exact htakes _
    rcases Sym2.eq_iff.mp (pairOf_eq_iff.mp hpair) with ⟨rfl, rfl⟩ | ⟨rfl, rfl⟩
    · exact hperm
    · rw [removedLabels_comm image', removedLabels_comm image]
      exact hperm

/-- **The edges that are not taken away** correspond. -/
theorem untaken_perm : ((untaken g' choices').map fun e => e.bond.map F).Perm
    ((untaken g choices).map Edge.bond) := by
  have hcount : g.labels.length = g'.labels.length := h.nodeCount_eq.symm
  have hremoved : (((removedBy choices').map g'.edgeAt).map fun e => e.bond.map F).Perm
      (((removedBy choices).map g.edgeAt).map Edge.bond) := by
    have hends : ∀ {g : Graph} {image : Images} {choices : List (RuleEdge × Nat)},
        r.choices image (g.edges.map some) = some choices →
        ∀ e ∈ (removedBy choices).map g.edgeAt, e ∈ g.edges := by
      intro g image choices hchoices e he
      obtain ⟨i, hi, rfl⟩ := List.mem_map.mp he
      have hget := List.getElem?_eq_getElem (lt_of_mem_removedBy hchoices hi)
      rw [Graph.edgeAt_of_getElem? hget]
      exact List.getElem_mem _
    refine map_bond_perm_of_labelsAmong (fun e he => g'.endpoints_lt e (hends hchoices' e he))
      (fun e he => hcount ▸ g.endpoints_lt e (hends hchoices e he))
      (fun hv => hcount ▸ h.isIso.lt hv)
      h.isIso.inj fun {u v} hu hv => ?_
    rw [labelsAmong_removedBy hchoices', labelsAmong_removedBy hchoices]
    exact h.removedLabels_perm hr hchoices' hchoices hwild hu hv
  have hedges := (Graph.isIso_view_iff.mp h.isIso).2.2.2.2
  have hsplit' := (edges_perm_untaken hchoices').map fun e => e.bond.map F
  have hsplit := (edges_perm_untaken hchoices).map Edge.bond
  rw [List.map_append] at hsplit' hsplit
  refine (List.perm_append_right_iff _).mp ((List.Perm.append_left _ hremoved.symm).trans ?_)
  exact hsplit'.symm.trans (hedges.trans hsplit)

end Twins

end Rule

end GraphGrammar
