import GraphGrammar.Proofs.Arena.Spread
import GraphGrammar.Proofs.Rewrite.Compaction
import GraphGrammar.Proofs.Rewrite.Removed

/-!
# What a step leaves alone

A step changes the host around the slots of the rule nodes only. Where the host consists of two
graphs side by side and all slots of rule nodes are in the first one, the second one is still there
at the end, beside what the step makes of the first one. And between slots that are those of no rule
node, all edges are still there, in their order.

## Main results

* `GraphGrammar.Rule.Placed.choices_append`, `GraphGrammar.Rule.untaken_append` — which edges are
  taken.
* `GraphGrammar.Rule.Placed.exists_isIso_append` — the result in a host of two graphs.
* `GraphGrammar.Rule.Placed.labelsAmong_result` — the edges between slots of no rule node.
-/

namespace GraphGrammar

/-- Graphs of which one is behind the slots that another one was made from. -/
theorem Graph.CompactOf.append {g : Graph} {n : Nat} {keep : Nat → Bool} {label : Nat → String}
    {edges : List Edge} (hg : g.CompactOf n keep label edges) (hkeep : ∀ s, n ≤ s → keep s = true)
    (h : Graph) : (g.append h).CompactOf (n + h.nodeCount) keep
      (fun s => if s < n then label s else h.labels.getD (s - n) "")
      (edges ++ h.edges.map (Edge.mapNodes (· + n))) where
  labels_eq := by
    have hbehind : ((List.range h.nodeCount).map (n + ·)).filter keep =
        (List.range h.nodeCount).map (n + ·) := by
      refine List.filter_eq_self.mpr fun s hs => ?_
      obtain ⟨k, -, rfl⟩ := List.mem_map.mp hs
      exact hkeep _ (Nat.le_add_right ..)
    rw [Graph.labels_append, hg.labels_eq, List.range_add, List.filter_append, hbehind,
      List.map_append, List.map_map]
    congr 1
    · refine List.map_congr_left fun s hs => ?_
      rw [if_pos (List.mem_range.mp (List.mem_of_mem_filter hs))]
    · refine List.ext_getElem (by simp [Graph.nodeCount]) fun k hk hk' => ?_
      simp [hk]
  edges_eq := by
    have hcount := hg.nodeCount_eq
    have hrank : ∀ v, rank keep (v + n) = v + rank keep n := fun v => by
      rw [Nat.add_comm, rank_add_of_forall hkeep, Nat.add_comm]
    rw [Graph.edges_append, hg.edges_eq, List.map_append, List.map_map]
    refine congrArg _ (List.map_congr_left fun e _ => ?_)
    simp only [Function.comp_apply, Edge.mapNodes, hrank, hcount]
  kept e he s hs := by
    rcases List.mem_append.mp he with he | he
    · obtain ⟨hlt, hkept⟩ := hg.kept e he s hs
      exact ⟨Nat.lt_of_lt_of_le hlt (Nat.le_add_right ..), hkept⟩
    · obtain ⟨e, hmem, rfl⟩ := List.mem_map.mp he
      have hends := h.endpoints_lt e hmem
      rw [← Graph.nodeCount] at hends
      simp only [Edge.mapNodes] at hs
      exact ⟨by omega, hkeep s (by omega)⟩

namespace Rule

variable {r : Rule} {image : Images} {n : Nat}

theorem Placed.mono (h : r.Placed image n) {n' : Nat} (hle : n ≤ n') : r.Placed image n' where
  length_eq := h.length_eq
  exists_slot hv hleft := by
    obtain ⟨s, hs, hslot⟩ := h.exists_slot hv hleft
    exact ⟨s, Nat.lt_of_lt_of_le hs hle, hslot⟩
  slot_none := h.slot_none
  inj := h.inj

/-! ### Which edges are taken -/

variable {a b : Graph}

theorem getElem?_edges_append {i : Nat} (hi : i < a.edges.length) :
    ((a.append b).edges.map some)[i]? = (a.edges.map some)[i]? := by
  rw [Graph.edges_append, List.map_append, List.getElem?_append_left (by simpa using hi)]

/-- Between slots of the first graph there are only its edges. -/
theorem slotsAt_append {pair : Nat × Nat} (hlt : pair.1 < a.nodeCount) :
    slotsAt ((a.append b).edges.map some) pair = slotsAt (a.edges.map some) pair := by
  have hbehind : ((List.range b.edges.length).map (a.edges.length + ·)).filter (fun i =>
      (((a.append b).edges.map some)[i]?).join.any fun e => e.connects pair.1 pair.2) = [] := by
    refine List.filter_eq_nil_iff.mpr fun i hi hany => ?_
    obtain ⟨k, hk, rfl⟩ := List.mem_map.mp hi
    obtain ⟨e, he, hconnects⟩ := (Option.any_eq_true ..).mp hany
    rw [Arena.join_getElem?_map_some, Graph.edges_append,
      List.getElem?_append_right (Nat.le_add_right ..)] at he
    have hends := Graph.nodeCount_le_of_mem (List.mem_of_getElem? he)
    have hpair := Edge.connects_iff.mp hconnects
    rw [Sym2.eq_iff] at hpair
    omega
  have hlength : ((a.append b).edges.map some).length = a.edges.length + b.edges.length := by
    simp [Graph.edges_append]
  rw [slotsAt, slotsAt, slotsWhere, slotsWhere, hlength, List.range_add, List.filter_append,
    hbehind, List.append_nil, List.length_map]
  refine List.filter_congr fun i hi => ?_
  rw [getElem?_edges_append (List.mem_range.mp hi)]

/-- **The edges of the left side** are given edges of the first graph. -/
theorem Placed.choices_append (h : r.Placed image a.nodeCount) (hr : r.isConsistent = true) :
    r.choices image ((a.append b).edges.map some) = r.choices image (a.edges.map some) := by
  have hat : ∀ pair ∈ placedPairs (r.placedEdges image),
      r.choicesAt image ((a.append b).edges.map some) pair =
        r.choicesAt image (a.edges.map some) pair := by
    intro pair hpair
    obtain ⟨e, he, rfl⟩ := mem_pairs_iff.mp hpair
    obtain ⟨⟨-, hs⟩, -, ht⟩ := h.slot?_of_mem_leftEdges hr he
    have hlt : (pairOf image e).1 < a.nodeCount := Nat.lt_of_le_of_lt (Nat.min_le_left ..) hs
    rw [choicesAt, choicesAt, slotsAt_append hlt]
    refine congrArg _ (choose_congr (fun e' i hi => ?_) _)
    have hi := (List.getElem?_eq_some_iff.mp (exists_edge_of_mem_slotsAt hi).1).1
    rw [fitsSlot, fitsSlot, getElem?_edges_append hi]
  rw [choices, choices]
  generalize placedPairs (r.placedEdges image) = pairs at hat
  induction pairs with
  | nil => rfl
  | cons pair pairs ih =>
    rw [choicesAlong, choicesAlong, hat pair (List.mem_cons_self ..),
      ih fun pair' hpair' => hat pair' (List.mem_cons_of_mem _ hpair')]

/-- No edge of the second graph is taken. -/
theorem untaken_append {choices : List (RuleEdge × Nat)}
    (hlt : ∀ i ∈ removedBy choices, i < a.edges.length) : untaken (a.append b) choices =
      untaken a choices ++ b.edges.map (Edge.mapNodes (· + a.nodeCount)) := by
  have hlength : (a.append b).edges.length = a.edges.length + b.edges.length := by
    simp [Graph.edges_append]
  have hbehind : ((List.range b.edges.length).map (a.edges.length + ·)).filter
      (fun i => i ∉ removedBy choices) = (List.range b.edges.length).map (a.edges.length + ·) := by
    refine List.filter_eq_self.mpr fun i hi => decide_eq_true fun hmem => ?_
    obtain ⟨k, -, rfl⟩ := List.mem_map.mp hi
    have := hlt _ hmem
    omega
  rw [untaken_eq_map_edgeAt, untaken_eq_map_edgeAt, hlength, List.range_add, List.filter_append,
    hbehind, List.map_append, List.map_map]
  congr 1
  · refine List.map_congr_left fun i hi => ?_
    have hi := List.mem_range.mp (List.mem_of_mem_filter hi)
    rw [Graph.edgeAt, Graph.edgeAt, Graph.edges_append, List.getElem?_append_left hi]
  · refine List.ext_getElem (by simp) fun k hk hk' => ?_
    rw [List.getElem_map, List.getElem_range, Function.comp_apply]
    refine Graph.edgeAt_of_getElem? ?_
    rw [Graph.edges_append, List.getElem?_append_right (Nat.le_add_right ..),
      Nat.add_sub_cancel_left]
    exact List.getElem?_eq_getElem hk'

/-! ### The result in a host of two graphs -/

/-- Where the slots of two graphs and of `p` new nodes are, when the new nodes come behind the
second graph. At first they come between the two graphs, the first of which has `n` nodes and the
second `q`. -/
def swapNew (n p q s : Nat) : Nat := if s < n then s else if s < n + p then s + q else s - p

theorem swapNew_of_lt {n p q s : Nat} (hs : s < n) : swapNew n p q s = s := if_pos hs

/-- The second graph is behind the first one again. -/
theorem swapNew_add (n p q v : Nat) : swapNew n p q (v + (n + p)) = v + n := by
  rw [swapNew, if_neg (by omega), if_neg (by omega)]
  omega

theorem swapNew_lt {n p q s : Nat} (hs : s < n + p + q) : swapNew n p q s < n + p + q := by
  rw [swapNew]
  split_ifs <;> omega

theorem swapNew_inj {n p q s s' : Nat} (hs : s < n + p + q) (hs' : s' < n + p + q)
    (heq : swapNew n p q s = swapNew n p q s') : s = s' := by
  rw [swapNew, swapNew] at heq
  split_ifs at heq <;> omega

theorem map_keptBond {p q : Nat} {e : Edge} (hs : e.source < n) (ht : e.target < n) :
    (r.keptBond image e).map (Bond.map (swapNew n p q)) = r.keptBond image e := by
  rw [keptBond]
  split
  · rw [List.map_singleton, Edge.bond, Bond.map_mk, swapNew_of_lt hs, swapNew_of_lt ht]
  · rfl

section

variable (h : r.Placed image a.nodeCount) (b : Graph)

include h

theorem Placed.append : r.Placed image (a.append b).nodeCount :=
  h.mono (Graph.nodeCount_append a b ▸ Nat.le_add_right ..)

theorem Placed.stays_swapNew (p q s : Nat) :
    r.stays image (swapNew a.nodeCount p q s) = r.stays image s := by
  rcases Nat.lt_or_ge s a.nodeCount with hs | hs
  · rw [swapNew_of_lt hs]
  · rw [h.stays_of_le hs, h.stays_of_le]
    rw [swapNew, if_neg (Nat.not_lt.mpr hs)]
    split <;> omega

/-- The slots at the end. -/
theorem Placed.finalImage_append {v : Nat} {role : NodeRole} (hv : r.roleOf v = some role) :
    (r.finalImage image (a.append b)).slot v =
      swapNew a.nodeCount r.newLabels.length b.nodeCount ((r.finalImage image a).slot v) := by
  have hcount := Graph.nodeCount_append a b
  rcases h.slot_finalImage_cases hv with ⟨hleft, hslot, hlt⟩ | ⟨rfl, hslot, hlt⟩ <;>
    rcases (h.append b).slot_finalImage_cases hv with ⟨hleft', hslot', -⟩ | ⟨hnew', hslot', -⟩
  · rw [swapNew_of_lt hlt]
    exact Option.some.inj (hslot'.symm.trans hslot)
  · rw [hnew'] at hleft
    cases hleft
  · cases hleft'
  · rw [hslot, hslot', hcount, swapNew, if_neg (by omega), if_pos (by omega)]
    omega

/-- The labels at the end. -/
theorem Placed.slotLabel_append (mode : Relabeling) {s : Nat}
    (hs : s < a.nodeCount + r.newLabels.length + b.nodeCount) :
    r.slotLabel mode image (a.append b) (swapNew a.nodeCount r.newLabels.length b.nodeCount s) =
      if s < a.nodeCount + r.newLabels.length then r.slotLabel mode image a s
      else b.labels.getD (s - (a.nodeCount + r.newLabels.length)) "" := by
  have hcount : (a.append b).nodeCount = a.nodeCount + b.nodeCount := Graph.nodeCount_append a b
  rcases Nat.lt_or_ge s a.nodeCount with hold | hnew
  · have hget : (a.append b).labels.getD s "" = a.labels.getD s "" := by
      rw [List.getD_eq_getElem?_getD, Graph.labels_append, List.getElem?_append_left hold,
        List.getD_eq_getElem?_getD]
    rw [swapNew_of_lt hold, if_pos (by omega), slotLabel, slotLabel, if_pos (by omega),
      if_pos hold, hget]
  · rcases Nat.lt_or_ge s (a.nodeCount + r.newLabels.length) with hlt | hge
    · rw [swapNew, if_neg (by omega), if_pos hlt, if_pos hlt, slotLabel, slotLabel,
        if_neg (by omega), if_neg (by omega), hcount]
      congr 1
      omega
    · obtain ⟨v, rfl⟩ := Nat.exists_eq_add_of_le' hge
      have hle : a.labels.length ≤ v + a.nodeCount := Nat.le_add_left ..
      have hget : (a.append b).labels.getD (v + a.nodeCount) "" = b.labels.getD v "" := by
        rw [List.getD_eq_getElem?_getD, Graph.labels_append, List.getElem?_append_right hle,
          ← Graph.nodeCount, Nat.add_sub_cancel, List.getD_eq_getElem?_getD]
      rw [swapNew_add, if_neg (by omega), slotLabel, if_pos (by omega), Nat.add_sub_cancel, ← hget]
      refine labelAt_of_forall (fun w hw hslot => ?_) _
      have := (h.slot?_eq hw rfl).1.symm.trans hslot
      have := (h.slot?_eq hw rfl).2
      simp only [Option.some.injEq] at *
      omega

/-- The edges of the second graph stay. -/
theorem Placed.keptBond_behind {e : Edge} (hs : a.nodeCount ≤ e.source)
    (ht : a.nodeCount ≤ e.target) : r.keptBond image e = [e.bond] := by
  rw [keptBond, h.stays_of_le hs, h.stays_of_le ht]
  rfl

/-- The edges of the second graph are not drawn again. -/
theorem Placed.slotCopies_behind (g : Graph) {e : Edge} (hs : a.nodeCount ≤ e.source)
    (ht : a.nodeCount ≤ e.target) : r.slotCopies image g e = [] := by
  rw [slotCopies, h.stays_of_le hs, h.stays_of_le ht]

theorem Placed.map_newEdges (hr : r.isConsistent = true) :
    (r.newEdges (r.finalImage image a)).map
        (fun e => e.bond.map (swapNew a.nodeCount r.newLabels.length b.nodeCount)) =
      (r.newEdges (r.finalImage image (a.append b))).map Edge.bond := by
  rw [newEdges, newEdges, List.map_map, List.map_map]
  refine List.map_congr_left fun e he => ?_
  obtain ⟨u, v, hu, hv, -⟩ := exists_roles_of_isConsistent hr (List.mem_of_mem_filter he)
  simp only [Function.comp_apply, Edge.bond, Bond.map_mk, h.finalImage_append b hu,
    h.finalImage_append b hv]

theorem Placed.map_copiesAt (hr : r.isConsistent = true) (gone : Nat) {kept : Nat}
    (hkept : kept < a.nodeCount) (label : String) :
    (r.copiesAt image a gone kept label).map
        (Bond.map (swapNew a.nodeCount r.newLabels.length b.nodeCount)) =
      r.copiesAt image (a.append b) gone kept label := by
  rw [copiesAt, copiesAt, List.map_map]
  refine List.map_congr_left fun d hd => ?_
  obtain ⟨role, hv, -⟩ := directive_target_of_isConsistent hr (List.mem_of_mem_filter hd)
  rw [Function.comp_apply, Bond.map_mk, h.finalImage_append b hv, swapNew_of_lt hkept]

theorem Placed.map_slotCopies (hr : r.isConsistent = true) {e : Edge} (hs : e.source < a.nodeCount)
    (ht : e.target < a.nodeCount) :
    (r.slotCopies image a e).map
        (Bond.map (swapNew a.nodeCount r.newLabels.length b.nodeCount)) =
      r.slotCopies image (a.append b) e := by
  rw [slotCopies, slotCopies]
  cases r.stays image e.source <;> cases r.stays image e.target
  · rfl
  · exact h.map_copiesAt b hr _ ht _
  · exact h.map_copiesAt b hr _ hs _
  · rfl

/-- **The edges at the end** are those that are left of the first graph, and those of the second. -/
theorem Placed.resultEdges_append (hr : r.isConsistent = true) {choices : List (RuleEdge × Nat)}
    (hchoices : r.choices image (a.edges.map some) = some choices) :
    ((r.resultEdges image a choices ++
        b.edges.map (Edge.mapNodes (· + (a.nodeCount + r.newLabels.length)))).map fun e =>
          e.bond.map (swapNew a.nodeCount r.newLabels.length b.nodeCount)).Perm
      ((r.resultEdges image (a.append b) choices).map Edge.bond) := by
  let move := swapNew a.nodeCount r.newLabels.length b.nodeCount
  let behind := b.edges.map (Edge.mapNodes (· + a.nodeCount))
  have hbehind : ∀ e ∈ behind, a.nodeCount ≤ e.source ∧ a.nodeCount ≤ e.target :=
    fun e he => Graph.nodeCount_le_of_mem he
  have hlt : ∀ e ∈ untaken a choices, e.source < a.nodeCount ∧ e.target < a.nodeCount :=
    fun e he => a.endpoints_lt e (mem_untaken he)
  have huntaken : untaken (a.append b) choices = untaken a choices ++ behind :=
    untaken_append fun i hi => lt_of_mem_removedBy hchoices hi
  have hmoved : (b.edges.map (Edge.mapNodes (· + (a.nodeCount + r.newLabels.length)))).map
      (fun e => e.bond.map move) = behind.map Edge.bond := by
    rw [List.map_map, List.map_map]
    refine List.map_congr_left fun e _ => ?_
    simp only [Function.comp_apply, Edge.bond, Edge.mapNodes, Bond.map_mk, move, swapNew_add]
  have hkept : (untaken (a.append b) choices).flatMap (r.keptBond image) =
      ((untaken a choices).flatMap (r.keptBond image)).map (Bond.map move) ++
        behind.map Edge.bond := by
    rw [huntaken, List.flatMap_append, List.map_flatMap, List.map_eq_flatMap]
    congr 1
    · exact List.flatMap_congr fun e he => (map_keptBond (hlt e he).1 (hlt e he).2).symm
    · exact List.flatMap_congr fun e he => h.keptBond_behind (hbehind e he).1 (hbehind e he).2
  have hcopies : (untaken (a.append b) choices).flatMap (r.slotCopies image (a.append b)) =
      ((untaken a choices).flatMap (r.slotCopies image a)).map (Bond.map move) := by
    have hnone : behind.flatMap (r.slotCopies image (a.append b)) = [] :=
      List.flatMap_eq_nil_iff.mpr fun e he =>
        h.slotCopies_behind _ (hbehind e he).1 (hbehind e he).2
    rw [huntaken, List.flatMap_append, hnone, List.append_nil, List.map_flatMap]
    exact List.flatMap_congr fun e he => (h.map_slotCopies b hr (hlt e he).1 (hlt e he).2).symm
  have hfirst := (h.bonds_resultEdges choices).map (Bond.map move)
  have hboth := (h.append b).bonds_resultEdges choices
  rw [List.map_map, List.map_append, List.map_append, List.map_map] at hfirst
  rw [hkept, hcopies, ← h.map_newEdges b hr] at hboth
  rw [List.map_append, hmoved]
  refine ((List.Perm.append_right _ hfirst).trans ?_).trans hboth.symm
  simp only [List.append_assoc]
  refine List.Perm.append_left _ ?_
  rw [← List.append_assoc]
  exact List.perm_append_comm

/-- **The result in a host of two graphs** is what the step makes of the first graph, beside the
second one. The numbers of the nodes of the second graph change as those of slots do. -/
theorem Placed.exists_isIso_append (hr : r.isConsistent = true) {mode : Relabeling}
    {choices : List (RuleEdge × Nat)}
    (hchoices : r.choices image (a.edges.map some) = some choices) {first both : Graph}
    (hfirst : r.rework mode image (Arena.host a) = .ok first)
    (hboth : r.rework mode image (Arena.host (a.append b)) = .ok both) :
    ∃ f, GraphView.IsIso f (first.append b).view both.view ∧
      ∀ v < b.nodeCount, f (first.nodeCount + v) = rank (r.stays image) (a.nodeCount + v) := by
  have hbehind : ∀ s, a.nodeCount + r.newLabels.length ≤ s → r.stays image s = true := fun s hs =>
    h.stays_of_le (Nat.le_trans (Nat.le_add_right ..) hs)
  have hcompact' := compactOf_of_rework hr h hchoices hfirst
  have hcompact := compactOf_of_rework hr (h.append b) ((h.choices_append hr).trans hchoices) hboth
  have hcount : (a.append b).nodeCount + r.newLabels.length =
      a.nodeCount + r.newLabels.length + b.nodeCount := by
    rw [Graph.nodeCount_append]
    omega
  rw [hcount] at hcompact
  obtain ⟨f, hf, hnumber⟩ := exists_isIso_of_slots (hcompact'.append hbehind b) hcompact
    (fun s hs => swapNew_lt hs) (fun hs hs' heq => swapNew_inj hs hs' heq)
    (fun s _ => h.stays_swapNew _ _ s) (fun s hs _ => h.slotLabel_append b mode hs)
    (h.resultEdges_append b hr hchoices)
  refine ⟨f, hf, fun v hv => ?_⟩
  have hslot := hnumber (a.nodeCount + r.newLabels.length + v) (by omega)
    (hbehind _ (Nat.le_add_right ..))
  rw [rank_add_of_forall hbehind, ← hcompact'.nodeCount_eq] at hslot
  rw [hslot, Nat.add_comm _ v, swapNew_add, Nat.add_comm v]

end

/-! ### Between slots of no rule node -/

section

variable {g : Graph} {choices : List (RuleEdge × Nat)} {x y : Nat}
  (h : r.Placed image g.nodeCount) (hr : r.isConsistent = true)
  (hchoices : r.choices image (g.edges.map some) = some choices)

include h hr hchoices

/-- Nothing is taken there. -/
theorem Placed.labelsAmong_untaken (hx : ∀ v, image.slot? v ≠ some x) :
    labelsAmong (untaken g choices) x y = labelsAmong g.edges x y := by
  have hfree : ∀ i ∈ removedBy choices, ¬(g.edgeAt i).connects x y = true := by
    intro i hi hconnects
    obtain ⟨e, he, -⟩ := mem_removedBy.mp hi
    have hleft := (map_fst_choices_perm hchoices).mem_iff.mp (List.mem_map_of_mem he)
    obtain ⟨⟨hs, -⟩, ht, -⟩ := h.slot?_of_mem_leftEdges hr hleft
    have hends := (exists_edge_of_mem_slotsAt (choices_spec hchoices he).1).2
    have hpair := (Edge.connects_iff.mp hends).symm.trans (Edge.connects_iff.mp hconnects)
    have hslot : image.slot e.source = x ∨ image.slot e.target = x := by
      simp only [pairOf, Sym2.eq_iff] at hpair
      omega
    rcases hslot with rfl | rfl
    · exact hx _ hs
    · exact hx _ ht
  have hall : labelsAmong g.edges x y =
      labelsAmong ((List.range g.edges.length).map g.edgeAt) x y := by
    rw [g.map_edgeAt_range]
  rw [hall, untaken_eq_map_edgeAt, labelsAmong, labelsAmong, List.filter_map, List.filter_map,
    List.filter_filter]
  refine congrArg _ (congrArg _ (List.filter_congr fun i _ => ?_))
  rw [Bool.and_eq_left_iff_imp, decide_eq_true_eq]
  exact fun hconnects hi => hfree i hi hconnects

/-- **Between slots of no rule node** the same edges are there at the end, in the same order. -/
theorem Placed.labelsAmong_result {mode : Relabeling} {result : Graph}
    (hresult : r.rework mode image (Arena.host g) = .ok result) (hx : x < g.nodeCount)
    (hy : y < g.nodeCount) (hxfree : ∀ v, image.slot? v ≠ some x)
    (hyfree : ∀ v, image.slot? v ≠ some y) :
    labelsAmong result.edges (rank (r.stays image) x) (rank (r.stays image) y) =
      labelsAmong g.edges x y := by
  have hcompact := compactOf_of_rework hr h hchoices hresult
  have hstays : ∀ {s}, (∀ v, image.slot? v ≠ some s) → r.stays image s = true := fun hfree =>
    h.stays_iff.mpr fun v _ => hfree v
  -- Edges that are new start at nodes of the right side.
  have hright : ∀ {s v role}, s < g.nodeCount → (∀ v, image.slot? v ≠ some s) →
      r.roleOf v = some role → (r.finalImage image g).slot v ≠ s := by
    intro s v role hs hfree hv heq
    rcases h.slot_finalImage_cases hv with ⟨-, hslot, -⟩ | ⟨-, hslot, -⟩
    · exact hfree v (heq ▸ hslot)
    · omega
  have hnew : labelsAmong (r.newEdges (r.finalImage image g)) x y = [] := by
    refine labelsAmong_eq_nil fun e he => ?_
    obtain ⟨e, hmem, rfl⟩ := List.mem_map.mp he
    obtain ⟨u, v, hu, -⟩ := exists_roles_of_isConsistent hr (List.mem_of_mem_filter hmem)
    exact ⟨fun hends => hright hx hxfree hu hends.1, fun hends => hright hy hyfree hu hends.1⟩
  have hcopies : labelsAmong ((r.looseEdges image (untaken g choices)).flatMap
      (r.copies (r.finalImage image g))) x y = [] := by
    refine labelsAmong_eq_nil fun e he => ?_
    obtain ⟨d, -, hcopy⟩ := List.mem_flatMap.mp he
    obtain ⟨directive, hdirective, rfl⟩ := List.mem_map.mp hcopy
    obtain ⟨role, hv, -⟩ := directive_target_of_isConsistent hr
      (List.mem_of_mem_filter (List.mem_of_mem_filter hdirective))
    exact ⟨fun hends => hright hx hxfree hv hends.1, fun hends => hright hy hyfree hv hends.1⟩
  rw [hcompact.edges_eq, labelsAmong_mapNodes (p := fun s => r.stays image s = true)
    (fun hu hv heq => rank_inj hu hv heq) (fun e he => ⟨(hcompact.kept e he _ (.inl rfl)).2,
      (hcompact.kept e he _ (.inr rfl)).2⟩) (hstays hxfree) (hstays hyfree), resultEdges,
    labelsAmong_append, labelsAmong_append, hnew, hcopies, List.append_nil, List.append_nil,
    labelsAmong_filter (hstays hxfree) (hstays hyfree), h.labelsAmong_untaken hr hchoices hxfree]

end

end Rule

end GraphGrammar
