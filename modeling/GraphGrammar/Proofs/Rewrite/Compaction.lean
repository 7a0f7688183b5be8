import GraphGrammar.Proofs.Graph.Isomorphism
import GraphGrammar.Proofs.Rewrite.Copies

/-!
# Results as compactions

At the end of a step the slots that stay are numbered anew. When the slots of two steps correspond,
then so do the graphs that are left.

## Main definitions

* `GraphGrammar.Graph.CompactOf` — the graph of the slots that are kept.

## Main results

* `GraphGrammar.exists_isIso_of_slots` — compaction respects isomorphisms between slots.
* `GraphGrammar.Rule.compactOf_of_rework` — the result of a step as a compaction.
-/

namespace GraphGrammar

/-! ### Compaction -/

/-- The graph of the slots that are kept. -/
structure Graph.CompactOf (g : Graph) (n : Nat) (keep : Nat → Bool) (label : Nat → String)
    (edges : List Edge) : Prop where
  /-- The nodes are the slots that are kept. -/
  labels_eq : g.labels = ((List.range n).filter keep).map label
  /-- The edges are between the ranks of their slots. -/
  edges_eq : g.edges = edges.map (Edge.mapNodes (rank keep))
  /-- The endpoints are kept. -/
  kept : ∀ e ∈ edges, ∀ s, s = e.source ∨ s = e.target → s < n ∧ keep s = true

theorem Graph.CompactOf.nodeCount_eq {g : Graph} {n : Nat} {keep : Nat → Bool}
    {label : Nat → String} {edges : List Edge} (h : g.CompactOf n keep label edges) :
    g.nodeCount = rank keep n := by
  rw [Graph.nodeCount, h.labels_eq, List.length_map, length_filter_range]

/-- **Compaction respects isomorphisms**: from isomorphic slots, isomorphic graphs remain. The
number of a slot is sent to the number of the slot to which the slot is sent. -/
theorem exists_isIso_of_slots {g' g : Graph} {n : Nat} {keep' keep : Nat → Bool}
    {label' label : Nat → String} {edges' edges : List Edge}
    (hg' : g'.CompactOf n keep' label' edges')
    (hg : g.CompactOf n keep label edges) {f : Nat → Nat} (hlt : ∀ s < n, f s < n)
    (hinj : ∀ {s s'}, s < n → s' < n → f s = f s' → s = s')
    (hkeep : ∀ s < n, keep (f s) = keep' s)
    (hlabel : ∀ s < n, keep' s = true → label (f s) = label' s)
    (hedges : (edges'.map fun e => e.bond.map f).Perm (edges.map Edge.bond)) :
    ∃ number, GraphView.IsIso number g'.view g.view ∧
      ∀ s < n, keep' s = true → number (rank keep' s) = rank keep (f s) := by
  let number : Nat → Nat := fun k => rank keep (f (((List.range n).filter keep').getD k 0))
  have hnumber : ∀ {s}, s < n → keep' s = true → number (rank keep' s) = rank keep (f s) := by
    intro s hs hkept
    simp only [number, List.getD_eq_getElem?_getD, getElem?_rank hkept hs, Option.getD_some]
  have hcount' := hg'.nodeCount_eq
  have hcount := hg.nodeCount_eq
  have hslot : ∀ {k}, k < g'.nodeCount → ∃ s < n, keep' s = true ∧ rank keep' s = k := by
    intro k hk
    rw [hcount'] at hk
    exact exists_rank_eq hk
  have hget : ∀ {l : Nat → String} {keep : Nat → Bool} {s}, s < n → keep s = true →
      (((List.range n).filter keep).map l)[rank keep s]? = some (l s) := by
    intro l keep s hs hkept
    rw [List.getElem?_map, getElem?_rank hkept hs]
    rfl
  refine ⟨number, Graph.isIso_view_iff.mpr
    ⟨?_, fun hk => ?_, fun hk hk' heq => ?_, fun hk => ?_, ?_⟩, fun s => hnumber⟩
  · rw [hcount', hcount]
    calc rank keep' n = (List.range n).countP (keep ∘ f) := List.countP_congr fun s hs => by
          rw [Function.comp_apply, hkeep s (List.mem_range.mp hs)]
      _ = ((List.range n).map f).countP keep := List.countP_map.symm
      _ = rank keep n := (map_range_perm hlt hinj).countP_eq keep
  · obtain ⟨s, hs, hkept, rfl⟩ := hslot hk
    rw [hnumber hs hkept, hcount]
    exact rank_lt_rank ((hkeep s hs).trans hkept) (hlt s hs)
  · obtain ⟨s, hs, hkept, rfl⟩ := hslot hk
    obtain ⟨s', hs', hkept', rfl⟩ := hslot hk'
    rw [hnumber hs hkept, hnumber hs' hkept'] at heq
    rw [hinj hs hs' (rank_inj ((hkeep s hs).trans hkept) ((hkeep s' hs').trans hkept') heq)]
  · obtain ⟨s, hs, hkept, rfl⟩ := hslot hk
    rw [hnumber hs hkept, Graph.view_label, Graph.view_label, hg'.labels_eq, hg.labels_eq,
      List.getD_eq_getElem?_getD, List.getD_eq_getElem?_getD,
      hget (hlt s hs) ((hkeep s hs).trans hkept), hget hs hkept]
    exact hlabel s hs hkept
  · rw [hg'.edges_eq, hg.edges_eq, List.map_map, List.map_map]
    have hbonds := hedges.map (Bond.map (rank keep))
    rw [List.map_map, List.map_map] at hbonds
    refine (List.Perm.of_eq (List.map_congr_left fun e he => ?_)).trans hbonds
    obtain ⟨hs, hskept⟩ := hg'.kept e he _ (.inl rfl)
    obtain ⟨ht, htkept⟩ := hg'.kept e he _ (.inr rfl)
    simp only [Function.comp_apply, Edge.bond, Edge.mapNodes, Bond.map_mk, hnumber hs hskept,
      hnumber ht htkept]

/-! ### Edges up to direction -/

theorem flatMap_congr_bond {K : Edge → List Bond}
    (hK : ∀ e e' : Edge, e.bond = e'.bond → K e = K e') {l l' : List Edge}
    (h : l.map Edge.bond = l'.map Edge.bond) : l.flatMap K = l'.flatMap K := by
  induction l generalizing l' with
  | nil =>
    rw [List.map_nil, eq_comm, List.map_eq_nil_iff] at h
    rw [h]
  | cons e l ih =>
    cases l' with
    | nil => cases h
    | cons e' l' =>
      rw [List.map_cons, List.map_cons, List.cons.injEq] at h
      rw [List.flatMap_cons, List.flatMap_cons, hK e e' h.1, ih h.2]

/-- What is made of every edge corresponds when the edges correspond. -/
theorem flatMap_perm_of_bonds {f f' : Nat → Nat} {edges' edges : List Edge}
    (h : (edges'.map fun e => e.bond.map f).Perm (edges.map Edge.bond)) {K' K : Edge → List Bond}
    (hK : ∀ e e' : Edge, e.bond = e'.bond → K e = K e')
    (hedge : ∀ e ∈ edges', ((K' e).map (Bond.map f')).Perm (K (e.mapNodes f))) :
    ((edges'.flatMap K').map (Bond.map f')).Perm (edges.flatMap K) := by
  obtain ⟨aligned, hperm, haligned⟩ := exists_perm_map_eq h.symm
  have hbonds : aligned.map Edge.bond = (edges'.map (Edge.mapNodes f)).map Edge.bond := by
    rw [haligned, List.map_map]
    rfl
  refine List.Perm.trans ?_ (hperm.flatMap_right K)
  rw [flatMap_congr_bond hK hbonds, List.flatMap_map, List.map_flatMap]
  exact List.Perm.flatMap_left _ hedge

namespace Rule

variable {r : Rule} {image : Images} {g : Graph}

theorem slotCopies_congr (r : Rule) (image : Images) (g : Graph) {e e' : Edge}
    (h : e.bond = e'.bond) : r.slotCopies image g e = r.slotCopies image g e' := by
  obtain ⟨a, b, l⟩ := e
  obtain ⟨a', b', l'⟩ := e'
  simp only [Edge.bond, Prod.mk.injEq, Sym2.eq_iff] at h
  obtain ⟨⟨rfl, rfl⟩ | ⟨rfl, rfl⟩, rfl⟩ := h
  · rfl
  · rw [slotCopies, slotCopies]
    cases r.stays image a <;> cases r.stays image b <;> rfl

/-- The edge without direction, if both endpoints stay. -/
def keptBond (r : Rule) (image : Images) (e : Edge) : List Bond :=
  if r.stays image e.source && r.stays image e.target then [e.bond] else []

theorem keptBond_congr (r : Rule) (image : Images) {e e' : Edge} (h : e.bond = e'.bond) :
    r.keptBond image e = r.keptBond image e' := by
  rw [keptBond, keptBond, h]
  refine if_congr ?_ rfl rfl
  obtain ⟨a, b, l⟩ := e
  obtain ⟨a', b', l'⟩ := e'
  simp only [Edge.bond, Prod.mk.injEq, Sym2.eq_iff] at h
  obtain ⟨⟨rfl, rfl⟩ | ⟨rfl, rfl⟩, rfl⟩ := h
  · rfl
  · rw [Bool.and_comm]

theorem bonds_filter_stays (r : Rule) (image : Images) (edges : List Edge) :
    ((edges.filter fun e => r.stays image e.source && r.stays image e.target).map Edge.bond) =
      edges.flatMap (r.keptBond image) := by
  induction edges with
  | nil => rfl
  | cons e edges ih =>
    rw [List.flatMap_cons, ← ih, keptBond, List.filter_cons]
    split <;> rfl

/-- **The edges at the end**, without direction. -/
theorem Placed.bonds_resultEdges (h : r.Placed image g.nodeCount)
    (choices : List (RuleEdge × Nat)) :
    ((r.resultEdges image g choices).map Edge.bond).Perm
      ((untaken g choices).flatMap (r.keptBond image) ++
        (r.newEdges (r.finalImage image g)).map Edge.bond ++
        (untaken g choices).flatMap (r.slotCopies image g)) := by
  rw [resultEdges, List.map_append, List.map_append, bonds_filter_stays]
  exact (List.Perm.refl _).append (bonds_copies_looseEdges h _)

/-! ### The result as a compaction -/

/-- The label of a slot at the end. -/
def slotLabel (r : Rule) (mode : Relabeling) (image : Images) (g : Graph) (s : Nat) : String :=
  if s < g.nodeCount then r.labelAt mode image s (g.labels.getD s "")
  else r.newLabels.getD (s - g.nodeCount) ""

theorem resultLabels_eq (mode : Relabeling) (h : r.Placed image g.nodeCount) :
    r.resultLabels mode image g =
      ((List.range (g.nodeCount + r.newLabels.length)).filter (r.stays image)).map
        (r.slotLabel mode image g) := by
  have hnew : ((List.range r.newLabels.length).map (g.nodeCount + ·)).filter (r.stays image) =
      (List.range r.newLabels.length).map (g.nodeCount + ·) := by
    refine List.filter_eq_self.mpr fun s hs => ?_
    obtain ⟨k, -, rfl⟩ := List.mem_map.mp hs
    exact h.stays_of_le (Nat.le_add_right ..)
  rw [resultLabels, List.range_add, List.filter_append, hnew, List.map_append, List.map_map]
  congr 1
  · refine List.map_congr_left fun s hs => ?_
    rw [slotLabel, if_pos (List.mem_range.mp (List.mem_of_mem_filter hs))]
  · refine List.ext_getElem (by simp) fun k hk hk' => ?_
    simp [slotLabel, hk]

theorem compactOf_of_rework (hr : r.isConsistent = true) {mode : Relabeling}
    (h : r.Placed image g.nodeCount) {choices : List (RuleEdge × Nat)}
    (hchoices : r.choices image (g.edges.map some) = some choices) {g' : Graph}
    (hrework : r.rework mode image (Arena.host g) = .ok g') :
    g'.CompactOf (g.nodeCount + r.newLabels.length) (r.stays image) (r.slotLabel mode image g)
      (r.resultEdges image g choices) := by
  obtain ⟨result, hresult, hlabels, hedges⟩ := (rework_eq hr mode h).1 choices hchoices
  cases hresult.symm.trans hrework
  exact ⟨hlabels.trans (resultLabels_eq mode h), hedges, fun e he => resultEdges_alive hr h he⟩

end Rule

end GraphGrammar
