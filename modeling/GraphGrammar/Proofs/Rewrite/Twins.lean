import GraphGrammar.Proofs.Rewrite.Compaction
import GraphGrammar.Proofs.Rule.Automorphisms

/-!
# Steps and isomorphisms

Two steps of a rule start from isomorphic hosts, and the isomorphism sends the slots of the rule
nodes of the one to those of the other, possibly after a permutation of the rule nodes that sends
the rule to itself. If it also sends the edges that were not given to left-only edges to such edges,
then the results are isomorphic.

## Main definitions

* `GraphGrammar.Rule.Twins` — two hosts and the correspondence between them.

## Main results

* `GraphGrammar.Rule.Twins.exists_isIso` — the results are isomorphic.
-/

namespace GraphGrammar

namespace Rule

variable {r : Rule} {φ F : Nat → Nat} {image' image : Images} {g' g : Graph}

theorem Placed.onLeft_of_slot? {n v s : Nat} (h : r.Placed image n) (hs : image.slot? v = some s) :
    ∃ role, r.roleOf v = some role ∧ role.onLeft = true := by
  cases hv : r.nodes[v]? with
  | none =>
    have hle := List.getElem?_eq_none_iff.mp hv
    rw [Images.slot?, List.getElem?_eq_none (h.length_eq ▸ hle)] at hs
    cases hs
  | some node =>
    have hrole : r.roleOf v = some node.role := by rw [roleOf, hv, Option.map_some]
    refine ⟨node.role, hrole, ?_⟩
    cases hnode : node.role with
    | rightOnly =>
      rw [hnode] at hrole
      rw [h.slot_none hrole] at hs
      cases hs
    | _ => rfl

/-- The rule node on both sides that has a slot. -/
theorem Placed.ruleNodeAt_eq_some_iff {n s v : Nat} (h : r.Placed image n) :
    r.ruleNodeAt image s = some v ↔
      (∃ role, r.roleOf v = some role ∧ role.survives = true) ∧ image.slot? v = some s := by
  let hit : Nat → Bool := fun v => (r.roleOf v).any (·.survives) && (image[v]?).join == some s
  have hhit : ∀ u, hit u = true ↔
      (∃ role, r.roleOf u = some role ∧ role.survives = true) ∧ image.slot? u = some s := by
    intro u
    simp only [hit, Bool.and_eq_true, Option.any_eq_true, beq_iff_eq, Images.slot?]
  change (List.range r.nodes.length).find? hit = some v ↔ _
  constructor
  · exact fun hfind => (hhit v).mp (List.find?_some (p := hit) hfind)
  · intro hv
    cases hfind : (List.range r.nodes.length).find? hit with
    | none =>
      obtain ⟨role, hrole, -⟩ := hv.1
      obtain ⟨node, hnode, -⟩ := Option.map_eq_some_iff.mp hrole
      have hlt := (List.getElem?_eq_some_iff.mp hnode).1
      exact absurd ((hhit v).mpr hv)
        (List.find?_eq_none.mp hfind v (List.mem_range.mpr hlt))
    | some u =>
      have hu := (hhit u).mp (List.find?_some (p := hit) hfind)
      rw [h.inj hu.2 hv.2]

/-- The copies of an edge that loses the image of a rule node. -/
theorem Placed.copiesAt_eq {n gone kept v : Nat} (h : r.Placed image n)
    (hv : image.slot? v = some gone) (label : String) : r.copiesAt image g gone kept label =
      (r.pastes v (r.ruleNodeAt image kept) label).map
        fun w => (s((r.finalImage image g).slot w, kept), label) := by
  have hsource : ∀ u : Nat, (image.slot? u == some gone) = (u == v) := by
    intro u
    rw [Bool.eq_iff_iff, beq_iff_eq, beq_iff_eq]
    exact ⟨fun hu => h.inj hu hv, fun heq => heq ▸ hv⟩
  rw [copiesAt, pastes, directivesOf, List.filter_filter, List.map_map]
  simp only [hsource, Bool.and_comm]
  rfl

theorem copiesAt_eq_nil {gone kept : Nat} {label : String}
    (h : ∀ d ∈ r.directives, image.slot? d.source ≠ some gone) :
    r.copiesAt image g gone kept label = [] := by
  rw [copiesAt, List.filter_eq_nil_iff.mpr, List.map_nil]
  intro d hd hadmitted
  rw [Bool.and_eq_true, beq_iff_eq] at hadmitted
  exact h d hd hadmitted.1

/-- The map that does to the numbers below `n` what `F` does, and nothing to all others. -/
def extendBy (F : Nat → Nat) (n s : Nat) : Nat := if s < n then F s else s

/-- Two hosts in which the left side of a rule was placed, and an isomorphism that sends the slots
of the rule nodes to those of the rule nodes after an automorphism of the rule. -/
structure Twins (r : Rule) (φ F : Nat → Nat) (image' : Images) (g' : Graph) (image : Images)
    (g : Graph) : Prop where
  /-- The rule nodes are permuted. -/
  automorphism : r.Automorphism φ
  /-- The hosts are isomorphic. -/
  isIso : GraphView.IsIso F g'.view g.view
  /-- The left side was placed in the first host. -/
  placed' : r.Placed image' g'.nodeCount
  /-- The left side was placed in the second host. -/
  placed : r.Placed image g.nodeCount
  /-- Slots are sent to slots. -/
  slot_eq : ∀ {v s : Nat}, image'.slot? v = some s → image.slot? (φ v) = some (F s)

namespace Twins

variable (h : r.Twins φ F image' g' image g)

include h

theorem nodeCount_eq : g'.nodeCount = g.nodeCount := h.isIso.nodeCount_eq

theorem slot_iff {v s : Nat} (hs : s < g'.nodeCount) :
    image.slot? (φ v) = some (F s) ↔ image'.slot? v = some s := by
  refine ⟨fun himage => ?_, h.slot_eq⟩
  obtain ⟨role, hrole, hleft⟩ := h.placed.onLeft_of_slot? himage
  rw [h.automorphism.roleOf_eq] at hrole
  obtain ⟨s', hs', hslot⟩ := h.placed'.exists_slot hrole hleft
  have heq := Option.some.inj ((h.slot_eq hslot).symm.trans himage)
  rw [hslot, h.isIso.inj hs' hs heq]

theorem stays_eq {s : Nat} (hs : s < g'.nodeCount) : r.stays image (F s) = r.stays image' s := by
  rw [Bool.eq_iff_iff, h.placed.stays_iff, h.placed'.stays_iff]
  constructor
  · intro hall v hv hslot
    exact hall (φ v) ((h.automorphism.roleOf_eq v).trans hv) (h.slot_eq hslot)
  · intro hall w hw hslot
    obtain ⟨v, rfl⟩ := h.automorphism.surj w
    rw [h.automorphism.roleOf_eq] at hw
    exact hall v hw ((h.slot_iff hs).mp hslot)

theorem ruleNodeAt_eq {s : Nat} (hs : s < g'.nodeCount) :
    r.ruleNodeAt image (F s) = (r.ruleNodeAt image' s).map φ := by
  refine Option.ext fun w => ?_
  rw [h.placed.ruleNodeAt_eq_some_iff, Option.map_eq_some_iff]
  constructor
  · rintro ⟨⟨role, hrole, hsurvives⟩, hslot⟩
    obtain ⟨v, rfl⟩ := h.automorphism.surj w
    rw [h.automorphism.roleOf_eq] at hrole
    exact ⟨v, h.placed'.ruleNodeAt_eq_some_iff.mpr
      ⟨⟨role, hrole, hsurvives⟩, (h.slot_iff hs).mp hslot⟩, rfl⟩
  · rintro ⟨v, hv, rfl⟩
    obtain ⟨⟨role, hrole, hsurvives⟩, hslot⟩ := h.placed'.ruleNodeAt_eq_some_iff.mp hv
    exact ⟨⟨role, (h.automorphism.roleOf_eq v).trans hrole, hsurvives⟩, h.slot_eq hslot⟩

theorem labelAt_eq (mode : Relabeling) {s : Nat} (hs : s < g'.nodeCount) (current : String) :
    r.labelAt mode image (F s) current = r.labelAt mode image' s current := by
  by_cases hchange : ∃ v, r.roleOf v = some .labelChange ∧ image'.slot? v = some s
  · obtain ⟨v, hv, hslot⟩ := hchange
    obtain ⟨node, hnode, hrole⟩ := Option.map_eq_some_iff.mp hv
    rw [labelAt_of_labelChange h.placed' hnode hrole hslot,
      labelAt_of_labelChange h.placed ((h.automorphism.node_eq v).trans hnode) hrole
        (h.slot_eq hslot)]
  · rw [labelAt_of_forall fun v hv hslot => hchange ⟨v, hv, hslot⟩, labelAt_of_forall]
    intro w hw hslot
    obtain ⟨v, rfl⟩ := h.automorphism.surj w
    rw [h.automorphism.roleOf_eq] at hw
    exact hchange ⟨v, hw, (h.slot_iff hs).mp hslot⟩

/-! ### Edges -/

/-- The map between all slots, in which those of right-only nodes keep their numbers. -/
theorem extend_lt {s : Nat} (hs : s < g'.nodeCount + r.newLabels.length) :
    extendBy F g'.nodeCount s < g'.nodeCount + r.newLabels.length := by
  rw [extendBy]
  split
  · next hlt =>
    have := h.isIso.lt hlt
    rw [Graph.view_nodeCount] at this
    have hcount := h.nodeCount_eq
    rw [Graph.nodeCount] at hcount ⊢
    rw [Graph.nodeCount] at hcount
    omega
  · exact hs

theorem extend_inj {s s' : Nat} (heq : extendBy F g'.nodeCount s = extendBy F g'.nodeCount s') :
    s = s' := by
  have hlt : ∀ {s}, s < g'.nodeCount → F s < g'.nodeCount := fun hs => by
    have := h.isIso.lt hs
    rw [Graph.view_nodeCount] at this
    rw [h.nodeCount_eq]
    exact this
  rw [extendBy, extendBy] at heq
  split at heq <;> split at heq
  · exact h.isIso.inj ‹_› ‹_› heq
  · have := hlt ‹s < g'.nodeCount›
    omega
  · have := hlt ‹s' < g'.nodeCount›
    omega
  · exact heq

theorem extend_stays {s : Nat} : r.stays image (extendBy F g'.nodeCount s) = r.stays image' s := by
  rw [extendBy]
  split
  · next hs => exact h.stays_eq hs
  · next hs =>
    have hle := Nat.le_of_not_lt hs
    rw [h.placed'.stays_of_le hle, h.placed.stays_of_le (h.nodeCount_eq ▸ hle)]

/-- The slots of the nodes of the right side correspond. -/
theorem finalImage_eq {v : Nat} {role : NodeRole} (hv : r.roleOf v = some role)
    (hrole : role.onRight = true) : (r.finalImage image g).slot (φ v) =
      extendBy F g'.nodeCount ((r.finalImage image' g').slot v) := by
  have hφ := (h.automorphism.roleOf_eq v).trans hv
  rcases h.placed'.slot_finalImage_cases hv with ⟨hleft, hslot, hlt⟩ | ⟨rfl, hslot, -⟩ <;>
    rcases h.placed.slot_finalImage_cases hφ with ⟨hleft', hslot', -⟩ | ⟨hnew', hslot', -⟩
  · rw [extendBy, if_pos hlt]
    exact Option.some.inj (hslot'.symm.trans (h.slot_eq hslot))
  · rw [hnew'] at hleft
    cases hleft
  · cases hleft'
  · rw [hslot, hslot', h.automorphism.eq_of_rightOnly hv, h.nodeCount_eq, extendBy,
      if_neg (by omega)]

theorem newEdges_perm (hr : r.isConsistent = true) :
    ((r.newEdges (r.finalImage image' g')).map
        fun e => e.bond.map (extendBy F g'.nodeCount)).Perm
      ((r.newEdges (r.finalImage image g)).map Edge.bond) := by
  have hperm := (h.automorphism.edges_perm.filter fun b => b.2.1 = .rightOnly).map fun b =>
    ((b.1.map (r.finalImage image g).slot, b.2.2) : Bond)
  rw [List.filter_map, List.filter_map, List.map_map, List.map_map] at hperm
  refine List.Perm.trans (List.Perm.of_eq ?_) (hperm.trans (List.Perm.of_eq ?_))
  · rw [newEdges, List.map_map]
    refine List.map_congr_left fun e he => ?_
    obtain ⟨hmem, hrole⟩ := List.mem_filter.mp he
    obtain ⟨a, b, ha, hb, hjoin⟩ := exists_roles_of_isConsistent hr hmem
    rw [decide_eq_true_eq] at hrole
    rw [hrole, EdgeRole.mayJoin, Bool.and_eq_true] at hjoin
    simp only [Function.comp_apply, Edge.bond, Bond.map_mk, ruleBond, Sym2.map_mk,
      h.finalImage_eq ha hjoin.1, h.finalImage_eq hb hjoin.2]
  · rw [newEdges, List.map_map]
    rfl

/-- The copies of corresponding edges correspond. -/
theorem copiesAt_perm (hr : r.isConsistent = true) {gone kept : Nat} (hgone : gone < g'.nodeCount)
    (hkept : kept < g'.nodeCount) (label : String) :
    ((r.copiesAt image' g' gone kept label).map (Bond.map (extendBy F g'.nodeCount))).Perm
      (r.copiesAt image g (F gone) (F kept) label) := by
  by_cases hnode : ∃ v, image'.slot? v = some gone
  · obtain ⟨v, hv⟩ := hnode
    have hsurvives : ∀ w ∈ r.ruleNodeAt image' kept, (r.roleOf w).any (·.survives) = true :=
      fun w hw => (Option.any_eq_true ..).mpr (h.placed'.ruleNodeAt_eq_some_iff.mp hw).1
    have hperm := (h.automorphism.pastesAlike v (r.ruleNodeAt image' kept) label hsurvives).map
      fun w => ((s((r.finalImage image g).slot w, F kept), label) : Bond)
    rw [h.placed'.copiesAt_eq hv, h.placed.copiesAt_eq (h.slot_eq hv), h.ruleNodeAt_eq hkept]
    rw [List.map_map] at hperm
    refine List.Perm.trans (List.Perm.of_eq ?_) hperm.symm
    rw [List.map_map]
    refine List.map_congr_left fun w hw => ?_
    obtain ⟨d, hd, rfl⟩ := List.mem_map.mp hw
    obtain ⟨role, hrole, hright⟩ := directive_target_of_isConsistent hr
      (List.mem_of_mem_filter (List.mem_of_mem_filter hd))
    have hkept' : extendBy F g'.nodeCount kept = F kept := if_pos hkept
    simp only [Function.comp_apply, Bond.map_mk, h.finalImage_eq hrole hright, hkept']
  · have hnone' : r.copiesAt image' g' gone kept label = [] :=
      copiesAt_eq_nil fun d _ hsource => hnode ⟨_, hsource⟩
    have hnone : r.copiesAt image g (F gone) (F kept) label = [] := by
      refine copiesAt_eq_nil fun d _ hsource => ?_
      obtain ⟨v, hv⟩ := h.automorphism.surj d.source
      rw [← hv] at hsource
      exact hnode ⟨v, (h.slot_iff hgone).mp hsource⟩
    rw [hnone', hnone]
    exact List.Perm.refl _

theorem slotCopies_perm (hr : r.isConsistent = true) {e : Edge} (hs : e.source < g'.nodeCount)
    (ht : e.target < g'.nodeCount) :
    ((r.slotCopies image' g' e).map (Bond.map (extendBy F g'.nodeCount))).Perm
      (r.slotCopies image g (e.mapNodes F)) := by
  rw [slotCopies, slotCopies, Edge.mapNodes, h.stays_eq hs, h.stays_eq ht]
  cases r.stays image' e.source <;> cases r.stays image' e.target
  · exact List.Perm.refl _
  · exact h.copiesAt_perm hr hs ht e.label
  · exact h.copiesAt_perm hr ht hs e.label
  · exact List.Perm.refl _

theorem keptBond_perm {e : Edge} (hs : e.source < g'.nodeCount) (ht : e.target < g'.nodeCount) :
    ((r.keptBond image' e).map (Bond.map (extendBy F g'.nodeCount))).Perm
      (r.keptBond image (e.mapNodes F)) := by
  rw [keptBond, keptBond, Edge.mapNodes, h.stays_eq hs, h.stays_eq ht]
  split
  · simp only [List.map_cons, List.map_nil, Edge.bond, Bond.map_mk, extendBy, if_pos hs, if_pos ht]
    exact List.Perm.refl _
  · exact List.Perm.refl _

section

variable {choices' choices : List (RuleEdge × Nat)}
  (huntaken : ((untaken g' choices').map fun e => e.bond.map F).Perm
    ((untaken g choices).map Edge.bond))

include huntaken

/-- The edges at the end correspond. -/
theorem resultEdges_perm (hr : r.isConsistent = true) :
    ((r.resultEdges image' g' choices').map fun e => e.bond.map (extendBy F g'.nodeCount)).Perm
      ((r.resultEdges image g choices).map Edge.bond) := by
  have hlt : ∀ e ∈ untaken g' choices', e.source < g'.nodeCount ∧ e.target < g'.nodeCount :=
    fun e he => g'.endpoints_lt e (mem_untaken he)
  have hkept := flatMap_perm_of_bonds huntaken (fun e e' => r.keptBond_congr image)
    fun e he => h.keptBond_perm (hlt e he).1 (hlt e he).2
  have hcopies := flatMap_perm_of_bonds huntaken (fun e e' => r.slotCopies_congr image g)
    fun e he => h.slotCopies_perm hr (hlt e he).1 (hlt e he).2
  have hresult := (h.placed'.bonds_resultEdges choices').map (Bond.map (extendBy F g'.nodeCount))
  have hnew := h.newEdges_perm hr
  rw [List.map_map, List.map_append, List.map_append, List.map_map] at hresult
  refine hresult.trans (List.Perm.trans ?_ (h.placed.bonds_resultEdges choices).symm)
  exact (hkept.append hnew).append hcopies

/-- **The results of twins** are isomorphic. Nodes that stay correspond as before. -/
theorem exists_isIso (hr : r.isConsistent = true) {mode : Relabeling}
    (hchoices' : r.choices image' (g'.edges.map some) = some choices')
    (hchoices : r.choices image (g.edges.map some) = some choices) {result' result : Graph}
    (hresult' : r.rework mode image' (Arena.host g') = .ok result')
    (hresult : r.rework mode image (Arena.host g) = .ok result) :
    ∃ number, GraphView.IsIso number result'.view result.view ∧
      ∀ s < g'.nodeCount, r.stays image' s = true →
        number (rank (r.stays image') s) = rank (r.stays image) (F s) := by
  have hcompact' := compactOf_of_rework hr h.placed' hchoices' hresult'
  have hcompact := compactOf_of_rework hr h.placed hchoices hresult
  rw [← h.nodeCount_eq] at hcompact
  have hlabel : ∀ s < g'.nodeCount + r.newLabels.length, r.stays image' s = true →
      r.slotLabel mode image g (extendBy F g'.nodeCount s) = r.slotLabel mode image' g' s := by
    intro s _ _
    rw [slotLabel, slotLabel, extendBy]
    split
    · next hlt =>
      have hF : F s < g.nodeCount := h.isIso.lt hlt
      have hlabel := h.isIso.label_eq hlt
      rw [Graph.view_label, Graph.view_label] at hlabel
      rw [if_pos hF, h.labelAt_eq mode hlt, hlabel]
    · next hge => rw [if_neg (h.nodeCount_eq ▸ hge), h.nodeCount_eq]
  obtain ⟨number, hiso, hnumber⟩ := exists_isIso_of_slots hcompact' hcompact
    (fun s hs => h.extend_lt hs) (fun _ _ heq => h.extend_inj heq) (fun s _ => h.extend_stays)
    hlabel (h.resultEdges_perm huntaken hr)
  refine ⟨number, hiso, fun s hs hstays => ?_⟩
  rw [hnumber s (Nat.lt_of_lt_of_le hs (Nat.le_add_right ..)) hstays, extendBy, if_pos hs]

end

end Twins

end Rule

end GraphGrammar
