import GraphGrammar.Proofs.Rewrite.Copied
import GraphGrammar.Proofs.Rewrite.SideGraphs
import GraphGrammar.Proofs.Rewrite.Twins

/-!
# A rule on its own left side

The left side of a rule is found in itself, where the identity maps it. Whichever way it is copied,
the host is the left side again. Every edge of the left side is then given a copy of itself: a
wildcard may take any label, but if it took a literal one, an edge with this label would go without.
So exactly the left-only edges are taken away, and no kept edge loses an endpoint, as consistency
lets kept edges join only nodes that survive. What is left is the right side.

## Main definitions

* `GraphGrammar.Rule.identityMapping` — the identity on the nodes of the left side.
* `GraphGrammar.Rule.HoldsLeftSide` — a host that is the left side.

## Main results

* `GraphGrammar.Rule.HoldsLeftSide.bond_edgeAt` — every edge is given a copy of itself.
* `GraphGrammar.Rule.HoldsLeftSide.looseEdges_untaken` — no edge dangles.
* `GraphGrammar.applyRule_leftPattern` — a rule turns its left side into its right side.
-/

namespace GraphGrammar

namespace Rule

variable {r : Rule} {image : Images} {g : Graph}

/-- A host that is the left side of the rule, and nothing else. -/
structure HoldsLeftSide (r : Rule) (g : Graph) (image : Images) : Prop where
  /-- The nodes of the left side have slots. -/
  placed : r.Placed image g.nodeCount
  /-- There are no other nodes. -/
  exists_node : ∀ {s : Nat}, s < g.nodeCount → ∃ v, image.slot? v = some s
  /-- Nodes have their labels. -/
  label_eq : ∀ {v s : Nat}, image.slot? v = some s → g.labels.getD s "" = r.labelOn .left v
  /-- The edges are those of the left side. -/
  edges_perm : (r.leftEdges.map (RuleEdge.bondAt image)).Perm (g.edges.map Edge.bond)

/-- The identity mapping of the left side. -/
def identityMapping (r : Rule) : List Nat := List.range r.leftPattern.graph.nodeCount

theorem imageOf_identityMapping {v u : Nat} :
    r.imageOf r.identityMapping v = some u ↔ (r.sideNodes .left)[u]? = some v := by
  have hcount := nodeCount_leftPattern r
  rw [imageOf_eq_some_iff]
  constructor
  · rintro ⟨i, hi, hu⟩
    obtain ⟨hlt, hget⟩ := List.getElem?_eq_some_iff.mp hu
    rw [identityMapping, List.length_range] at hlt
    simp only [identityMapping, List.getElem_range] at hget
    exact hget ▸ hi
  · intro hu
    have hlt := (List.getElem?_eq_some_iff.mp hu).1
    exact ⟨u, hu, List.getElem?_range (hcount ▸ hlt)⟩

/-- The left side is found where it is. -/
theorem applicable_identityMapping (hr : r.isConsistent = true) :
    r.Applicable r.leftPattern.graph r.identityMapping where
  occurrence := ⟨List.length_range.trans (nodeCount_leftPattern r),
    fun _ hu => List.mem_range.mp hu, List.nodup_range⟩
  fits {a b u v} ha hb := by
    rw [labelsBetween_leftPattern hr (imageOf_identityMapping.mp ha)
      (imageOf_identityMapping.mp hb)]
    exact labelsFit_self ..

section

variable {each : Bool} {spots : List (Nat × Nat)}

/-- A node of the left side is only in the copy on which it acts. -/
theorem CopyHolds.eq_copyNumber {k u v : Nat} (hv : (r.sideNodes .left)[u]? = some v)
    (h : r.CopyHolds each r.leftPattern.graph r.identityMapping k u) : k = r.copyNumber each v := by
  cases each with
  | false => exact h
  | true =>
    rw [CopyHolds, if_pos rfl] at h
    rcases h with ⟨w, i, hw, rfl, hlinked⟩ | ⟨-, hnone⟩
    · exact copyNumber_eq_of_linked true (imageOf_identityMapping.mp hw) hv hlinked
    · exact absurd (GraphView.Linked.refl _ u) (hnone v u (imageOf_identityMapping.mpr hv))

/-- Copies of the left side, for its components or as a whole, are the left side again. -/
theorem Copied.holdsLeftSide (hr : r.isConsistent = true)
    (h : r.Copied each r.leftPattern.graph r.identityMapping g image spots) :
    r.HoldsLeftSide g image := by
  have hplaced := h.placed (applicable_identityMapping hr).occurrence
  have hexists : ∀ {s}, s < g.nodeCount → ∃ v, image.slot? v = some s := by
    intro s hs
    rw [h.spreads.nodeCount_eq] at hs
    obtain ⟨hu, hcopy⟩ := h.mem_iff.mp (List.getElem_mem hs)
    have hv := List.getElem?_eq_getElem (nodeCount_leftPattern r ▸ hu)
    refine ⟨_, h.slot_iff.mpr ⟨_, imageOf_identityMapping.mpr hv, ?_⟩⟩
    rw [← hcopy.eq_copyNumber hv]
    exact List.getElem?_eq_getElem hs
  refine ⟨hplaced, hexists, fun {v s} hs => ?_, ?_⟩
  · obtain ⟨u, hu, hspot⟩ := h.slot_iff.mp hs
    rw [← Graph.view_label, h.spreads.label_eq hspot, leftPattern, Graph.view_label,
      labels_sideGraph, List.getD_eq_getElem?_getD, List.getElem?_map,
      imageOf_identityMapping.mp hu]
    rfl
  · -- Between any two slots there are as many edges with each label as on the left side.
    have hlaid : ((r.leftEdges.map (RuleEdge.laid image)).map fun e => e.bond.map fun s => s).Perm
        (g.edges.map Edge.bond) := by
      refine map_bond_perm_of_labelsAmong (n := g.nodeCount) (fun e' he' => ?_) g.endpoints_lt
        (fun hs => hs) (fun _ _ heq => heq) fun {x y} hx hy => ?_
      · obtain ⟨e, he, rfl⟩ := List.mem_map.mp he'
        obtain ⟨⟨-, hs⟩, -, ht⟩ := hplaced.slot?_of_mem_leftEdges hr he
        exact ⟨hs, ht⟩
      · obtain ⟨a, ha⟩ := hexists hx
        obtain ⟨b, hb⟩ := hexists hy
        rw [hplaced.labelsAmong_laid hr ha hb]
        obtain ⟨u, v, hu, hv, hperm | ⟨hnil, hnil'⟩⟩ := h.labelsAmong_slots hr ha hb
        · rw [labelsBetween_leftPattern hr (imageOf_identityMapping.mp hu)
            (imageOf_identityMapping.mp hv)] at hperm
          exact hperm.symm
        · rw [hnil, hnil']
    have hbonds : ((r.leftEdges.map (RuleEdge.laid image)).map fun e => e.bond.map fun s => s) =
        r.leftEdges.map (RuleEdge.bondAt image) := by
      rw [List.map_map]
      exact List.map_congr_left fun e _ => Bond.map_id _
    rwa [hbonds] at hlaid

end

namespace HoldsLeftSide

variable {choices : List (RuleEdge × Nat)}

/-! ### Every edge is given itself -/

section

variable (h : r.HoldsLeftSide g image)
  (hchoices : r.choices image (g.edges.map some) = some choices)

include h hchoices

/-- All edges of the host are given. -/
theorem map_snd_choices_perm : (choices.map Prod.snd).Perm (List.range g.edges.length) := by
  refine perm_range_of_nodup (nodup_map_snd_choices hchoices) (fun i hi => ?_) ?_
  · obtain ⟨⟨e, i⟩, hmem, rfl⟩ := List.mem_map.mp hi
    have hget := (exists_edge_of_mem_slotsAt (choices_spec hchoices hmem).1).1
    exact (List.getElem?_eq_some_iff.mp hget).1
  · have hfirst := (map_fst_choices_perm hchoices).length_eq
    have hedges := h.edges_perm.length_eq
    simp only [List.length_map] at hfirst hedges
    rw [List.length_map, hfirst, hedges]

/-- Every edge of the left side is given an edge with its own label, a wildcard a wildcard. -/
theorem label_edgeAt {e : RuleEdge} {i : Nat} (hi : (e, i) ∈ choices) :
    (g.edgeAt i).label = e.label := by
  let given := choices.map fun c => (c.1.label, (g.edgeAt c.2).label)
  have hfits : ∀ p ∈ given, labelFits r.wildcard p.1 p.2 = true := by
    intro p hp
    obtain ⟨⟨e, i⟩, hmem, rfl⟩ := List.mem_map.mp hp
    obtain ⟨hslot, hfit⟩ := choices_spec hchoices hmem
    rwa [fitsSlot_eq hslot] at hfit
  have hrequired : (given.map Prod.fst).Perm (r.leftEdges.map (·.label)) := by
    have hfirst := (map_fst_choices_perm hchoices).map (·.label)
    rw [List.map_map] at hfirst
    rw [List.map_map]
    exact hfirst
  have hfound : (given.map Prod.snd).Perm (g.edges.map (·.label)) := by
    have hall := (h.map_snd_choices_perm hchoices).map fun i => (g.edgeAt i).label
    have hread : (List.range g.edges.length).map (fun i => (g.edgeAt i).label) =
        g.edges.map (·.label) := by
      conv_rhs => rw [← g.map_edgeAt_range, List.map_map]
      rfl
    rw [List.map_map, hread] at hall
    rw [List.map_map]
    exact hall
  have hlabels : (r.leftEdges.map (·.label)).Perm (g.edges.map (·.label)) := by
    have hbonds := h.edges_perm.map Prod.snd
    rw [List.map_map, List.map_map] at hbonds
    exact hbonds
  -- All labels of the host are given, and they are those that are asked for.
  have hself := eq_of_labelFits_of_perm hfits
    (hrequired.trans (hlabels.trans hfound.symm)) _ (List.mem_map_of_mem hi)
  exact hself.symm

/-- **Every edge of the left side** is given an edge that is a copy of itself. -/
theorem bond_edgeAt {e : RuleEdge} {i : Nat} (hi : (e, i) ∈ choices) :
    (g.edgeAt i).bond = e.bondAt image := by
  have hconnects := (exists_edge_of_mem_slotsAt (choices_spec hchoices hi).1).2
  have hpair : s((pairOf image e).1, (pairOf image e).2) =
      s(image.slot e.source, image.slot e.target) := by
    rw [pairOf, Sym2.eq_iff]
    omega
  exact Prod.ext ((Edge.connects_iff.mp hconnects).trans hpair) (h.label_edgeAt hchoices hi)

/-- What is not given to left-only edges are the kept edges. -/
theorem bonds_untaken : ((untaken g choices).map Edge.bond).Perm
    ((r.edges.filter fun e => e.role = .kept).map (RuleEdge.bondAt image)) := by
  let leftOnly : RuleEdge → Bool := fun e => e.role = .leftOnly
  have hkept : (r.leftEdges.filter fun e => !leftOnly e) =
      r.edges.filter fun e => e.role = .kept := by
    rw [leftEdges, List.filter_filter]
    refine List.filter_congr fun e _ => ?_
    cases hrole : e.role <;> simp [leftOnly, hrole, EdgeRole.onLeft]
  have htaken : (((removedBy choices).map g.edgeAt).map Edge.bond).Perm
      ((r.leftEdges.filter leftOnly).map (RuleEdge.bondAt image)) := by
    have hself : ((removedBy choices).map g.edgeAt).map Edge.bond =
        ((choices.map Prod.fst).filter leftOnly).map (RuleEdge.bondAt image) := by
      rw [removedBy, List.map_map, List.map_map, List.filter_map, List.map_map]
      exact List.map_congr_left fun c hc => h.bond_edgeAt hchoices (List.mem_of_mem_filter hc)
    rw [hself]
    exact ((map_fst_choices_perm hchoices).filter leftOnly).map _
  have hhost := (edges_perm_untaken hchoices).map Edge.bond
  have hsplit := (List.filter_append_perm leftOnly r.leftEdges).map (RuleEdge.bondAt image)
  rw [List.map_append] at hhost hsplit
  rw [← hkept]
  -- What was taken is cancelled on both sides.
  refine (List.perm_append_right_iff
    ((r.leftEdges.filter leftOnly).map (RuleEdge.bondAt image))).mp ?_
  exact (List.Perm.append_left _ htaken.symm).trans
    (hhost.symm.trans (h.edges_perm.symm.trans (hsplit.symm.trans List.perm_append_comm)))

/-- Kept edges join nodes that stay. -/
theorem stays_of_mem_untaken (hr : r.isConsistent = true) {e : Edge} (he : e ∈ untaken g choices) :
    r.stays image e.source = true ∧ r.stays image e.target = true := by
  have hmem := (h.bonds_untaken hchoices).mem_iff.mp (List.mem_map_of_mem he)
  obtain ⟨kept, hkept, hbond⟩ := List.mem_map.mp hmem
  obtain ⟨hkept, hrole⟩ := List.mem_filter.mp hkept
  rw [decide_eq_true_eq] at hrole
  obtain ⟨⟨a, ha, hsource⟩, b, hb, htarget⟩ := survives_of_kept hr hkept hrole
  have hstays : ∀ {v role}, r.roleOf v = some role → role.survives = true →
      r.stays image (image.slot v) = true := by
    intro v role hv hrole
    have hleft : role.onLeft = true := by
      cases role <;> first | rfl | exact hrole
    exact h.placed.stays_of_survives hv hrole (h.placed.slot?_eq hv hleft).1
  have hends : s(image.slot kept.source, image.slot kept.target) = s(e.source, e.target) :=
    congrArg Prod.fst hbond
  rcases Sym2.eq_iff.mp hends with ⟨hs, ht⟩ | ⟨hs, ht⟩
  · exact ⟨hs ▸ hstays ha hsource, ht ▸ hstays hb htarget⟩
  · exact ⟨ht ▸ hstays hb htarget, hs ▸ hstays ha hsource⟩

/-- **No edge dangles**: none that is not taken loses an endpoint. -/
theorem looseEdges_untaken (hr : r.isConsistent = true) :
    r.looseEdges image (untaken g choices) = [] := by
  refine List.eq_nil_iff_forall_not_mem.mpr fun d hd => ?_
  obtain ⟨e, he, hrole, htouch, -⟩ := mem_looseEdges hd
  obtain ⟨hs, ht⟩ := h.stays_of_mem_untaken hchoices hr he
  rw [Edge.touches, Bool.or_eq_true, beq_iff_eq, beq_iff_eq] at htouch
  rcases htouch with heq | heq
  · exact stays_eq_true_iff.mp hs _ hrole heq.symm
  · exact stays_eq_true_iff.mp ht _ hrole heq.symm

/-- **The edges at the end** are those of the right side. -/
theorem bonds_resultEdges (hr : r.isConsistent = true) :
    ((r.edges.filter fun e => Side.right.hasEdge e.role).map
      (RuleEdge.bondAt (r.finalImage image g))).Perm
        ((r.resultEdges image g choices).map Edge.bond) := by
  have hall : ((untaken g choices).filter fun e =>
      r.stays image e.source && r.stays image e.target) = untaken g choices :=
    List.filter_eq_self.mpr fun e he =>
      Bool.and_eq_true_iff.mpr (h.stays_of_mem_untaken hchoices hr he)
  have hkept : (r.edges.filter fun e => e.role = .kept).map (RuleEdge.bondAt image) =
      (r.edges.filter fun e => e.role = .kept).map (RuleEdge.bondAt (r.finalImage image g)) := by
    refine List.map_congr_left fun e he => ?_
    obtain ⟨he, hrole⟩ := List.mem_filter.mp he
    rw [decide_eq_true_eq] at hrole
    obtain ⟨⟨a, ha, hsource⟩, b, hb, htarget⟩ := survives_of_kept hr he hrole
    simp only [RuleEdge.bondAt, RuleEdge.laid, RuleEdge.toEdge, Edge.mapNodes, Images.slot,
      slot?_finalImage_of_survives ha hsource, slot?_finalImage_of_survives hb htarget]
  have hnew : (r.newEdges (r.finalImage image g)).map Edge.bond =
      (r.edges.filter fun e => e.role = .rightOnly).map
        (RuleEdge.bondAt (r.finalImage image g)) := by
    rw [newEdges, List.map_map]
    rfl
  have hsplit := List.filter_append_perm (fun e : RuleEdge => decide (e.role = .kept))
    (r.edges.filter fun e => Side.right.hasEdge e.role)
  rw [List.filter_filter, List.filter_filter] at hsplit
  have hfirst : (r.edges.filter fun e => decide (e.role = .kept) && Side.right.hasEdge e.role) =
      r.edges.filter fun e => e.role = .kept :=
    List.filter_congr fun e _ => by cases hrole : e.role <;> rfl
  have hsecond : (r.edges.filter fun e => !decide (e.role = .kept) && Side.right.hasEdge e.role) =
      r.edges.filter fun e => e.role = .rightOnly :=
    List.filter_congr fun e _ => by cases hrole : e.role <;> rfl
  rw [hfirst, hsecond] at hsplit
  refine (hsplit.map _).symm.trans ?_
  rw [resultEdges, hall, h.looseEdges_untaken hchoices hr, List.flatMap_nil, List.append_nil,
    List.map_append, List.map_append, hnew, ← hkept]
  exact List.Perm.append_right _ (h.bonds_untaken hchoices).symm

end

/-! ### The slots of the right side -/

section

variable (h : r.HoldsLeftSide g image)

include h

/-- The host has as many nodes as the left side. -/
theorem nodeCount_eq : g.nodeCount = rank (r.isOn .left) r.nodes.length := by
  have hslot : ∀ {v}, v ∈ r.sideNodes .left → image.slot? v = some (image.slot v) ∧
      image.slot v < g.nodeCount := by
    intro v hv
    obtain ⟨role, hrole, hleft⟩ := mem_sideNodes.mp hv
    exact h.placed.slot?_eq hrole hleft
  have hperm : ((r.sideNodes .left).map image.slot).Perm (List.range g.nodeCount) := by
    have hnodup : ((r.sideNodes .left).map image.slot).Nodup :=
      (r.nodup_sideNodes .left).map_on fun v hv w hw heq =>
        h.placed.inj (hslot hv).1 (heq ▸ (hslot hw).1)
    refine (List.perm_ext_iff_of_nodup hnodup List.nodup_range).mpr fun s => ?_
    rw [List.mem_map, List.mem_range]
    constructor
    · rintro ⟨v, hv, rfl⟩
      exact (hslot hv).2
    · intro hs
      obtain ⟨v, hv⟩ := h.exists_node hs
      obtain ⟨role, hrole, hleft⟩ := h.placed.onLeft_of_slot? hv
      exact ⟨v, mem_sideNodes.mpr ⟨role, hrole, hleft⟩, Images.slot_of_slot? hv⟩
  have hlength := hperm.length_eq
  rw [List.length_map, List.length_range, sideNodes] at hlength
  exact hlength.symm.trans (length_filter_range ..)

/-- At the end there is a slot for every node of the rule. -/
theorem nodeCount_add : g.nodeCount + r.newLabels.length = r.nodes.length := by
  rw [h.nodeCount_eq, length_newLabels, rank_congr fun v hv => isRightOnly_eq_not_isOn hv,
    rank_add_rank_not]

theorem slot_finalImage_lt {v : Nat} (hv : v < r.nodes.length) :
    (r.finalImage image g).slot v < r.nodes.length := by
  have hcount := h.nodeCount_add
  rcases h.placed.slot_finalImage_cases (roleOf_of_lt hv) with ⟨-, -, hlt⟩ | ⟨-, hslot, hlt⟩ <;>
    omega

theorem slot_finalImage_inj {u v : Nat} (hu : u < r.nodes.length) (hv : v < r.nodes.length)
    (heq : (r.finalImage image g).slot u = (r.finalImage image g).slot v) : u = v := by
  have hright : ∀ {w} (hw : w < r.nodes.length), r.nodes[w].role = .rightOnly →
      r.isRightOnly w = true := fun hw hrole => by
    rw [isRightOnly_eq_true_iff, roleOf_of_lt hw, hrole]
  rcases h.placed.slot_finalImage_cases (roleOf_of_lt hu) with
    ⟨-, hslot, hlt⟩ | ⟨hnew, hslot, -⟩ <;>
    rcases h.placed.slot_finalImage_cases (roleOf_of_lt hv) with
      ⟨-, hslot', hlt'⟩ | ⟨hnew', hslot', -⟩
  · exact h.placed.inj hslot (heq ▸ hslot')
  · omega
  · omega
  · rw [hslot, hslot', Nat.add_left_cancel_iff] at heq
    exact rank_inj (hright hu hnew) (hright hv hnew') heq

/-- The slots that stay are those of the nodes of the right side. -/
theorem stays_slot_finalImage {v : Nat} (hv : v < r.nodes.length) :
    r.stays image ((r.finalImage image g).slot v) = r.isOn .right v := by
  have hrole := roleOf_of_lt hv
  rw [isOn, hrole, Option.any_some]
  rcases h.placed.slot_finalImage_cases hrole with ⟨hleft, hslot, -⟩ | ⟨hnew, hslot, -⟩
  · cases hnode : r.nodes[v].role with
    | leftOnly =>
      exact Bool.eq_false_iff.mpr fun hstays =>
        stays_eq_true_iff.mp hstays v (hnode ▸ hrole) (Images.slot_of_slot? hslot)
    | rightOnly =>
      rw [hnode] at hleft
      cases hleft
    | _ => exact h.placed.stays_of_survives (hnode ▸ hrole) rfl hslot
  · rw [hnew, hslot, h.placed.stays_of_le (Nat.le_add_right ..)]
    rfl

/-- The nodes of the right side get their labels. -/
theorem slotLabel_slot_finalImage (hr : r.isConsistent = true) {v : Nat}
    (hv : v < r.nodes.length) (hon : r.isOn .right v = true) :
    r.slotLabel .replace image g ((r.finalImage image g).slot v) = r.labelOn .right v := by
  have hnode := List.getElem?_eq_getElem hv
  have hlabel : ∀ s, r.labelOn s v = s.label r.nodes[v] := fun s => by
    rw [labelOn, hnode, Option.elim_some]
  have hroleOf := roleOf_of_lt hv
  rw [hlabel, Side.label, RuleNode.rightLabel?]
  rcases h.placed.slot_finalImage_cases hroleOf with ⟨hleft, hslot, hlt⟩ | ⟨hnew, hslot, -⟩
  · rw [slotLabel, if_pos hlt, h.label_eq hslot, hlabel, Side.label]
    cases hnodeRole : r.nodes[v].role with
    | kept =>
      refine labelAt_of_forall (fun w hw hslot' => ?_) _
      rw [h.placed.inj hslot' hslot, hroleOf, hnodeRole] at hw
      cases hw
    | labelChange =>
      obtain ⟨label, hlabel⟩ := exists_newLabel_of_isConsistent hr (List.getElem_mem hv) hnodeRole
      rw [labelAt_of_labelChange h.placed hnode hnodeRole hslot, hlabel]
      rfl
    | leftOnly =>
      rw [isOn, hroleOf, hnodeRole] at hon
      cases hon
    | rightOnly =>
      rw [hnodeRole] at hleft
      cases hleft
  · rw [slotLabel, hslot, if_neg (by omega), Nat.add_sub_cancel_left, hnew,
      List.getD_eq_getElem?_getD, getElem?_newLabels hv hnew]
    rfl

/-- **What is made of the left side** is the right side. -/
theorem isomorphic_of_rework (hr : r.isConsistent = true) {result : Graph}
    {choices : List (RuleEdge × Nat)}
    (hchoices : r.choices image (g.edges.map some) = some choices)
    (hrework : r.rework .replace image (Arena.host g) = .ok result) :
    (r.sideGraph .right).Isomorphic result := by
  have hresult := compactOf_of_rework hr h.placed hchoices hrework
  rw [h.nodeCount_add] at hresult
  obtain ⟨number, hiso, -⟩ := exists_isIso_of_slots (compactOf_sideGraph hr .right) hresult
    (fun v hv => h.slot_finalImage_lt hv) (fun hu hv => h.slot_finalImage_inj hu hv)
    (fun v hv => h.stays_slot_finalImage hv)
    (fun v hv hon => h.slotLabel_slot_finalImage hr hv hon)
    (by rw [List.map_map]; exact h.bonds_resultEdges hchoices hr)
  exact ⟨number, hiso⟩

end

end HoldsLeftSide

end Rule

/-- **A rule turns its own left side into its right side.** Applied to its left side by the identity
mapping, with either way of copying and with labels replaced, a consistent rule gives a graph that
is isomorphic to its right side. -/
theorem applyRule_leftPattern {r : Rule} (hr : r.isConsistent = true) (each : Bool) :
    ∃ g, applyRule r ⟨each, .replace⟩ r.leftPattern.graph r.identityMapping = .ok g ∧
      g.Isomorphic r.rightGraph := by
  have happlicable := Rule.applicable_identityMapping hr
  obtain ⟨host, spots, hhost, hcopied⟩ := Rule.exists_copied hr happlicable ⟨each, .replace⟩
  have hleft := hcopied.holdsLeftSide hr
  obtain ⟨choices, g, hchoices, hrework⟩ := hleft.placed.exists_rework hr .replace
    fun hx hy => hcopied.fits hr happlicable hx hy
  refine ⟨g, applyRule_eq_ok_iff.mpr ⟨hr, rfl, Rule.rewrite_eq_ok_iff.mpr
    ⟨Rule.checkOccurrence_eq_ok_iff.mpr happlicable.occurrence, hhost ▸ hrework⟩⟩, ?_⟩
  have hright : r.rightGraph.Isomorphic (r.sideGraph .right) :=
    ⟨_, (r.sideGraph .right).view.isIso_toGraph⟩
  exact (hright.trans (hleft.isomorphic_of_rework hr hchoices hrework)).symm

/-- A rule with nodes and edges of all roles, parallel edges, self-loops, wildcards next to the same
edges with literal labels, a directive, and a constraint that its own left side violates. -/
def Rule.medley : Rule where
  id := some "medley"
  nodes := [⟨.kept, "A", none⟩, ⟨.leftOnly, "B", none⟩, ⟨.labelChange, "C", some "D"⟩,
    ⟨.rightOnly, "E", none⟩, ⟨.leftOnly, "B", none⟩]
  edges := [⟨0, 2, .leftOnly, "*"⟩, ⟨2, 0, .kept, "x"⟩, ⟨0, 2, .kept, "*"⟩, ⟨2, 0, .rightOnly, "y"⟩,
    ⟨1, 1, .leftOnly, "*"⟩, ⟨1, 1, .leftOnly, "x"⟩, ⟨0, 1, .leftOnly, "*"⟩, ⟨2, 2, .kept, "x"⟩,
    ⟨3, 3, .rightOnly, "*"⟩, ⟨0, 3, .rightOnly, "x"⟩]
  constraints := [.noEdge 0 2]
  directives := [⟨1, 3, none, none⟩]
  wildcard := some "*"

theorem applyRule_leftPattern_medley : Rule.medley.isConsistent = true ∧
    (∃ g, applyRule Rule.medley ⟨false, .replace⟩ Rule.medley.leftPattern.graph
      Rule.medley.identityMapping = .ok g ∧ g.Isomorphic Rule.medley.rightGraph) ∧
    ∃ g, applyRule Rule.medley ⟨true, .replace⟩ Rule.medley.leftPattern.graph
      Rule.medley.identityMapping = .ok g ∧ g.Isomorphic Rule.medley.rightGraph := by
  have hr : Rule.medley.isConsistent = true := by decide +kernel
  exact ⟨hr, applyRule_leftPattern hr false, applyRule_leftPattern hr true⟩

end GraphGrammar
