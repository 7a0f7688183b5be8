import GraphGrammar.Proofs.Arena.Listing
import GraphGrammar.Proofs.Graph.Append
import GraphGrammar.Proofs.Graph.Components

/-!
# Copies of parts of a graph

A host may hold several copies of parts of one graph. Every slot then holds a node of the graph, in
one of the copies, and two slots are joined by the edges between their nodes if they belong to the
same copy.

## Main definitions

* `GraphGrammar.Graph.Spreads` — a host whose slots hold given nodes of a graph in given copies.
* `GraphGrammar.GraphView.parts` — copies of parts of a graph, one after the other.

## Main results

* `GraphGrammar.Graph.Spreads.append_part` — one more copy.
* `GraphGrammar.GraphView.spreads_parts`, `GraphGrammar.GraphView.getElem?_spotsOfParts` — copies of
  several parts.
* `GraphGrammar.Graph.Spreads.exists_isIso` — hosts that hold corresponding copies are isomorphic.
* `GraphGrammar.GraphView.exists_isIso_parts` — a graph in two parts.
-/

namespace GraphGrammar

/-- The nodes of one copy with its number. -/
def GraphView.spotsOf (t : GraphView) (k : Nat) (keep : Nat → Bool) : List (Nat × Nat) :=
  ((List.range t.nodeCount).filter keep).map (k, ·)

theorem GraphView.mem_spotsOf {t : GraphView} {k : Nat} {keep : Nat → Bool} {spot : Nat × Nat} :
    spot ∈ t.spotsOf k keep ↔ spot.1 = k ∧ spot.2 < t.nodeCount ∧ keep spot.2 = true := by
  obtain ⟨j, u⟩ := spot
  simp only [spotsOf, List.mem_map, List.mem_filter, List.mem_range, Prod.mk.injEq]
  constructor
  · rintro ⟨_, hu, rfl, rfl⟩
    exact ⟨rfl, hu⟩
  · rintro ⟨rfl, hu⟩
    exact ⟨u, hu, rfl, rfl⟩

theorem GraphView.length_spotsOf (t : GraphView) (k : Nat) (keep : Nat → Bool) :
    (t.spotsOf k keep).length = rank keep t.nodeCount := by
  rw [spotsOf, List.length_map, length_filter_range]

/-- A node of a copy stands there at its rank. -/
theorem GraphView.getElem?_spotsOf {t : GraphView} {k j u i : Nat} {keep : Nat → Bool} :
    (t.spotsOf k keep)[i]? = some (j, u) ↔
      j = k ∧ u < t.nodeCount ∧ keep u = true ∧ i = rank keep u := by
  constructor
  · intro h
    obtain ⟨hj, hu, hkeep⟩ := mem_spotsOf.mp (List.mem_of_getElem? h)
    refine ⟨hj, hu, hkeep, ?_⟩
    rw [spotsOf, List.getElem?_map, Option.map_eq_some_iff] at h
    obtain ⟨u', hu', heq⟩ := h
    obtain rfl : u' = u := congrArg Prod.snd heq
    have hnodup : ((List.range t.nodeCount).filter keep).Nodup := List.nodup_range.filter _
    exact (List.getElem?_inj (List.getElem?_eq_some_iff.mp hu').1 hnodup).mp
      (hu'.trans (getElem?_rank hkeep hu).symm)
  · rintro ⟨rfl, hu, hkeep, rfl⟩
    rw [spotsOf, List.getElem?_map, getElem?_rank hkeep hu]
    rfl

namespace Graph

/-- A host whose slots hold nodes of a graph, in copies that have numbers. -/
structure Spreads (g : Graph) (t : GraphView) (spots : List (Nat × Nat)) : Prop where
  /-- For every slot the copy and the node are listed. -/
  nodeCount_eq : g.nodeCount = spots.length
  /-- No node occurs twice in a copy. -/
  nodup : spots.Nodup
  /-- Nodes are nodes of the graph. -/
  lt : ∀ spot ∈ spots, spot.2 < t.nodeCount
  /-- Nodes keep their labels. -/
  label_eq : ∀ {s : Nat} {spot : Nat × Nat}, spots[s]? = some spot →
    g.view.label s = t.label spot.2
  /-- Edges join nodes of one copy. -/
  labels_eq : ∀ {x y : Nat} {p q : Nat × Nat}, spots[x]? = some p → spots[y]? = some q →
    labelsAmong g.edges x y = if p.1 = q.1 then labelsAmong t.edgeList p.2 q.2 else []

theorem spreads_empty (t : GraphView) : Graph.empty.Spreads t [] where
  nodeCount_eq := rfl
  nodup := List.nodup_nil
  lt spot hspot := absurd hspot List.not_mem_nil
  label_eq h := by cases h
  labels_eq h := by cases h

end Graph

namespace Graph.Spreads

variable {g : Graph} {t : GraphView} {spots : List (Nat × Nat)} {k : Nat} {keep : Nat → Bool}

/-- The edges of one copy, between its nodes. -/
theorem labelsAmong_part {u v : Nat} (hu : keep u = true) (hv : keep v = true) :
    labelsAmong (t.part keep).edges (rank keep u) (rank keep v) = labelsAmong t.edgeList u v := by
  rw [GraphView.part, labelsAmong_mapNodes (p := fun v => keep v = true)
    (fun hu hv heq => rank_inj hu hv heq) ?_ hu hv, labelsAmong_filter hu hv]
  exact fun e he => Bool.and_eq_true_iff.mp (List.mem_filter.mp he).2

/-- A slot of a host to which a copy was added. -/
theorem getElem?_append_spotsOf {x : Nat} {p : Nat × Nat} :
    (spots ++ t.spotsOf k keep)[x]? = some p ↔ spots[x]? = some p ∨
      p.1 = k ∧ p.2 < t.nodeCount ∧ keep p.2 = true ∧ x = spots.length + rank keep p.2 := by
  rw [List.getElem?_append]
  split
  · next hx =>
    refine (or_iff_left ?_).symm
    rintro ⟨-, -, -, rfl⟩
    omega
  · next hx =>
    rw [List.getElem?_eq_none (Nat.le_of_not_lt hx)]
    simp only [reduceCtorEq, false_or]
    refine GraphView.getElem?_spotsOf.trans ?_
    refine and_congr_right fun _ => and_congr_right fun _ => and_congr_right fun _ => ?_
    omega

/-- **One more copy** of a part is put behind the copies that are there. -/
theorem append_part (h : g.Spreads t spots) (hk : ∀ spot ∈ spots, spot.1 ≠ k) (keep : Nat → Bool) :
    (g.append (t.part keep)).Spreads t (spots ++ t.spotsOf k keep) where
  nodeCount_eq := by
    rw [List.length_append, GraphView.length_spotsOf, ← h.nodeCount_eq, ← t.nodeCount_part]
    exact List.length_append
  nodup := by
    refine h.nodup.append ?_ fun spot hspot hspot' =>
      hk spot hspot (GraphView.mem_spotsOf.mp hspot').1
    exact (List.nodup_range.filter _).map fun _ _ heq => congrArg Prod.snd heq
  lt spot hspot := by
    rcases List.mem_append.mp hspot with hspot | hspot
    · exact h.lt spot hspot
    · exact (GraphView.mem_spotsOf.mp hspot).2.1
  label_eq {s spot} hs := by
    rw [view_label, List.getD_eq_getElem?_getD]
    rcases getElem?_append_spotsOf.mp hs with hs | ⟨-, hu, hkeep, rfl⟩
    · have hlt : s < g.labels.length := by
        have := (List.getElem?_eq_some_iff.mp hs).1
        rwa [← h.nodeCount_eq] at this
      rw [append, List.getElem?_append_left hlt, ← List.getD_eq_getElem?_getD, ← view_label,
        h.label_eq hs]
    · have hle : g.labels.length ≤ spots.length + rank keep spot.2 := by
        rw [← h.nodeCount_eq]
        exact Nat.le_add_right ..
      have hcount : g.labels.length = spots.length := h.nodeCount_eq
      rw [append, List.getElem?_append_right hle, hcount, Nat.add_sub_cancel_left, GraphView.part,
        List.getElem?_map, getElem?_rank hkeep hu]
      rfl
  labels_eq {x y p q} hx hy := by
    have hcount := h.nodeCount_eq
    have hold : ∀ {x : Nat} {p : Nat × Nat}, spots[x]? = some p → x < g.nodeCount ∧ p.1 ≠ k :=
      fun hx => ⟨hcount ▸ (List.getElem?_eq_some_iff.mp hx).1, hk _ (List.mem_of_getElem? hx)⟩
    rcases getElem?_append_spotsOf.mp hx with hx | ⟨hpk, -, hu, rfl⟩ <;>
      rcases getElem?_append_spotsOf.mp hy with hy | ⟨hqk, -, hv, rfl⟩
    · rw [labelsAmong_append_of_lt (hold hx).1, h.labels_eq hx hy]
    · obtain ⟨hlt, hne⟩ := hold hx
      rw [← hcount, labelsAmong_append_of_lt_of_le hlt (Nat.le_add_right ..), if_neg (hqk ▸ hne)]
    · obtain ⟨hlt, hne⟩ := hold hy
      rw [← hcount, labelsAmong_comm, labelsAmong_append_of_lt_of_le hlt (Nat.le_add_right ..),
        if_neg (hpk ▸ hne.symm)]
    · rw [← hcount, labelsAmong_append_add, labelsAmong_part hu hv, if_pos (hpk.trans hqk.symm)]

/-! ### Copies of several parts -/

end Graph.Spreads

namespace GraphView

variable {t : GraphView} {keeps : List (Nat → Bool)}

/-- Copies of parts of a graph, one after the other. -/
def parts (t : GraphView) (keeps : List (Nat → Bool)) : Graph :=
  keeps.foldl (fun g keep => g.append (t.part keep)) Graph.empty

/-- The nodes of these copies in their order, each with the number of its copy. -/
def spotsOfParts (t : GraphView) (keeps : List (Nat → Bool)) : List (Nat × Nat) :=
  keeps.zipIdx.flatMap fun p => t.spotsOf p.2 p.1

/-- The number of nodes of the first copies. -/
def offset (t : GraphView) (keeps : List (Nat → Bool)) (k : Nat) : Nat :=
  (t.parts (keeps.take k)).nodeCount

theorem parts_append_singleton (keeps : List (Nat → Bool)) (keep : Nat → Bool) :
    t.parts (keeps ++ [keep]) = (t.parts keeps).append (t.part keep) := by
  rw [parts, List.foldl_concat, parts]

theorem spotsOfParts_append_singleton (keeps : List (Nat → Bool)) (keep : Nat → Bool) :
    t.spotsOfParts (keeps ++ [keep]) = t.spotsOfParts keeps ++ t.spotsOf keeps.length keep := by
  rw [spotsOfParts, List.zipIdx_append, List.flatMap_append, spotsOfParts]
  simp

theorem lt_length_of_mem_spotsOfParts {spot : Nat × Nat} (h : spot ∈ t.spotsOfParts keeps) :
    spot.1 < keeps.length := by
  obtain ⟨p, hp, hspot⟩ := List.mem_flatMap.mp h
  rw [(mem_spotsOf.mp hspot).1]
  exact (List.getElem?_eq_some_iff.mp (List.mem_zipIdx_iff_getElem?.mp hp)).1

/-- **Copies of parts** of a graph. -/
theorem spreads_parts (t : GraphView) (keeps : List (Nat → Bool)) :
    (t.parts keeps).Spreads t (t.spotsOfParts keeps) := by
  induction keeps using List.reverseRecOn with
  | nil => exact Graph.spreads_empty t
  | append_singleton keeps keep ih =>
    rw [parts_append_singleton, spotsOfParts_append_singleton]
    exact ih.append_part (fun _ hspot => Nat.ne_of_lt (lt_length_of_mem_spotsOfParts hspot)) keep

theorem isListed_parts (t : GraphView) (keeps : List (Nat → Bool)) : (t.parts keeps).IsListed := by
  induction keeps using List.reverseRecOn with
  | nil => exact Graph.isListed_empty
  | append_singleton keeps keep ih =>
    rw [parts_append_singleton]
    exact ih.append (t.isListed_part keep)

theorem length_spotsOfParts (t : GraphView) (keeps : List (Nat → Bool)) :
    (t.spotsOfParts keeps).length = t.offset keeps keeps.length := by
  rw [offset, List.take_length, (t.spreads_parts keeps).nodeCount_eq]

/-- **A node of a copy** stands at its rank behind the copies before. -/
theorem getElem?_spotsOfParts {s k u : Nat} : (t.spotsOfParts keeps)[s]? = some (k, u) ↔
    ∃ keep, keeps[k]? = some keep ∧ u < t.nodeCount ∧ keep u = true ∧
      s = t.offset keeps k + rank keep u := by
  induction keeps using List.reverseRecOn with
  | nil => simp [spotsOfParts]
  | append_singleton keeps keep ih =>
    have hoffset : ∀ {k}, k ≤ keeps.length → t.offset (keeps ++ [keep]) k = t.offset keeps k := by
      intro k hk
      rw [offset, List.take_append_of_le_length hk, offset]
    rw [spotsOfParts_append_singleton, Graph.Spreads.getElem?_append_spotsOf, ih,
      length_spotsOfParts]
    simp only [getElem?_append_singleton_eq_some_iff]
    constructor
    · rintro (⟨keep', hk, hu, hkeep, hs⟩ | ⟨rfl, hu, hkeep, hs⟩)
      · have hlt := (List.getElem?_eq_some_iff.mp hk).1
        exact ⟨keep', .inl hk, hu, hkeep, hoffset (Nat.le_of_lt hlt) ▸ hs⟩
      · exact ⟨keep, .inr ⟨rfl, rfl⟩, hu, hkeep, hoffset (Nat.le_refl _) ▸ hs⟩
    · rintro ⟨keep', hk | ⟨rfl, rfl⟩, hu, hkeep, hs⟩
      · have hlt := (List.getElem?_eq_some_iff.mp hk).1
        exact .inl ⟨keep', hk, hu, hkeep, hoffset (Nat.le_of_lt hlt) ▸ hs⟩
      · exact .inr ⟨rfl, hu, hkeep, hoffset (Nat.le_refl _) ▸ hs⟩

theorem mem_spotsOfParts {k u : Nat} : (k, u) ∈ t.spotsOfParts keeps ↔
    u < t.nodeCount ∧ ∃ keep, keeps[k]? = some keep ∧ keep u = true := by
  rw [List.mem_iff_getElem?]
  simp only [getElem?_spotsOfParts]
  constructor
  · rintro ⟨-, keep, hk, hu, hkeep, -⟩
    exact ⟨hu, keep, hk, hkeep⟩
  · rintro ⟨hu, keep, hk, hkeep⟩
    exact ⟨_, keep, hk, hu, hkeep, rfl⟩

/-- Only which nodes are kept counts. -/
theorem parts_congr {keeps' : List (Nat → Bool)}
    (h : List.Forall₂ (fun keep keep' => ∀ v < t.nodeCount, keep v = keep' v) keeps keeps') :
    t.parts keeps = t.parts keeps' := by
  have hfold : ∀ g : Graph, keeps.foldl (fun g keep => g.append (t.part keep)) g =
      keeps'.foldl (fun g keep => g.append (t.part keep)) g := by
    induction h with
    | nil => exact fun _ => rfl
    | cons hkeep _ ih =>
      intro g
      rw [List.foldl_cons, List.foldl_cons, part_congr hkeep, ih]
  exact hfold Graph.empty

theorem spotsOfParts_congr {keeps' : List (Nat → Bool)}
    (h : List.Forall₂ (fun keep keep' => ∀ v < t.nodeCount, keep v = keep' v) keeps keeps') :
    t.spotsOfParts keeps = t.spotsOfParts keeps' := by
  have hspots : ∀ n, (keeps.zipIdx n).flatMap (fun p => t.spotsOf p.2 p.1) =
      (keeps'.zipIdx n).flatMap fun p => t.spotsOf p.2 p.1 := by
    induction h with
    | nil => exact fun _ => rfl
    | cons hkeep _ ih =>
      intro n
      rw [List.zipIdx_cons, List.zipIdx_cons, List.flatMap_cons, List.flatMap_cons, ih, spotsOf,
        spotsOf, List.filter_congr fun v hv => hkeep v (List.mem_range.mp hv)]
  exact hspots 0

theorem parts_singleton (t : GraphView) (keep : Nat → Bool) : t.parts [keep] = t.part keep :=
  (parts_append_singleton [] keep).trans (Graph.eq_of_parts rfl (List.map_id _))

theorem parts_pair (t : GraphView) (keep keep' : Nat → Bool) :
    t.parts [keep, keep'] = (t.part keep).append (t.part keep') := by
  rw [← t.parts_singleton keep]
  exact parts_append_singleton [keep] keep'

end GraphView

namespace Graph.Spreads

variable {g : Graph} {t : GraphView} {spots : List (Nat × Nat)}

/-- **Hosts that hold corresponding copies** of isomorphic graphs are isomorphic. Several copies may
correspond to one, if no nodes of different ones are linked. -/
theorem exists_isIso {t' : GraphView} {g' : Graph} {spots' : List (Nat × Nat)} {f σ : Nat → Nat}
    (h' : g'.Spreads t' spots') (h : g.Spreads t spots) (hf : GraphView.IsIso f t' t)
    (hσ : ∀ p ∈ spots', ∀ q ∈ spots', σ p.1 = σ q.1 → t'.Linked p.2 q.2 → p.1 = q.1)
    (hmem : ∀ p ∈ spots', (σ p.1, f p.2) ∈ spots)
    (hsurj : ∀ q ∈ spots, ∃ p ∈ spots', (σ p.1, f p.2) = q) :
    ∃ F, GraphView.IsIso F g'.view g.view ∧
      ∀ {s : Nat} {p : Nat × Nat}, spots'[s]? = some p → spots[F s]? = some (σ p.1, f p.2) := by
  have hinj : ∀ p ∈ spots', ∀ q ∈ spots', (σ p.1, f p.2) = (σ q.1, f q.2) → p = q := by
    intro p hp q hq heq
    rw [Prod.mk.injEq] at heq
    have hnode := hf.inj (h'.lt p hp) (h'.lt q hq) heq.2
    exact Prod.ext (hσ p hp q hq heq.1 (hnode ▸ GraphView.Linked.refl t' p.2)) hnode
  let send : Nat × Nat → Nat × Nat := fun p => (σ p.1, f p.2)
  have hperm : (spots'.map send).Perm spots := by
    refine (List.perm_ext_iff_of_nodup (h'.nodup.map_on hinj) h.nodup).mpr fun q => ?_
    rw [List.mem_map]
    constructor
    · rintro ⟨p, hp, rfl⟩
      exact hmem p hp
    · exact hsurj q
  have hlength : spots'.length = spots.length := by
    rw [← hperm.length_eq, List.length_map]
  let F : Nat → Nat := fun s => spots.idxOf (send (spots'.getD s (0, 0)))
  have hF : ∀ {s : Nat} {p : Nat × Nat}, spots'[s]? = some p → spots[F s]? = some (send p) := by
    intro s p hs
    have hp : spots'.getD s (0, 0) = p := by rw [List.getD_eq_getElem?_getD, hs, Option.getD_some]
    have hlt := List.idxOf_lt_length_of_mem (hmem p (List.mem_of_getElem? hs))
    simp only [F, hp]
    rw [List.getElem?_eq_getElem hlt, List.getElem_idxOf]
  have hget : ∀ {s}, s < g'.nodeCount → ∃ p, spots'[s]? = some p := fun hs =>
    ⟨_, List.getElem?_eq_getElem (h'.nodeCount_eq ▸ hs)⟩
  refine ⟨F, ⟨?_, fun {s} hs => ?_, fun {x y} hx hy heq => ?_, fun {s} hs => ?_,
    fun {x y} hx hy => ?_⟩, hF⟩
  · rw [view_nodeCount, view_nodeCount, ← nodeCount, ← nodeCount, h'.nodeCount_eq, h.nodeCount_eq,
      hlength]
  · obtain ⟨p, hp⟩ := hget hs
    have hlt := (List.getElem?_eq_some_iff.mp (hF hp)).1
    rwa [← h.nodeCount_eq] at hlt
  · obtain ⟨p, hp⟩ := hget hx
    obtain ⟨q, hq⟩ := hget hy
    have hpq := (hF hp).symm.trans (heq ▸ hF hq)
    have := hinj p (List.mem_of_getElem? hp) q (List.mem_of_getElem? hq) (Option.some.inj hpq)
    subst this
    exact (List.getElem?_inj (List.getElem?_eq_some_iff.mp hp).1 h'.nodup).mp (hp.trans hq.symm)
  · obtain ⟨p, hp⟩ := hget hs
    rw [h.label_eq (hF hp), h'.label_eq hp, hf.label_eq (h'.lt p (List.mem_of_getElem? hp))]
  · obtain ⟨p, hp⟩ := hget hx
    obtain ⟨q, hq⟩ := hget hy
    have hpmem := List.mem_of_getElem? hp
    have hqmem := List.mem_of_getElem? hq
    rw [labelsBetween_view, labelsBetween_view, h'.labels_eq hp hq, h.labels_eq (hF hp) (hF hq)]
    have hlabels := (t'.labelsAmong_edgeList p.2 q.2).trans
      ((hf.labels_perm (h'.lt p hpmem) (h'.lt q hqmem)).trans (t.labelsAmong_edgeList _ _).symm)
    by_cases hpq : p.1 = q.1
    · rw [if_pos hpq, if_pos (congrArg σ hpq)]
      exact hlabels
    · rw [if_neg hpq]
      by_cases hσpq : σ p.1 = σ q.1
      · have hnone : t'.labelsBetween p.2 q.2 = [] := by
          rw [GraphView.labelsBetween_eq_nil_iff, ← Bool.not_eq_true]
          exact fun hedge =>
            hpq (hσ p hpmem q hqmem hσpq (GraphView.Linked.of_hasEdge hedge))
        have hnil := t'.labelsAmong_edgeList p.2 q.2
        rw [hnone] at hnil
        rw [hnil.eq_nil] at hlabels
        rw [if_pos hσpq]
        exact hlabels
      · rw [if_neg hσpq]

end Graph.Spreads

theorem GraphView.getElem?_wholeSpots {t : GraphView} {s : Nat} {p : Nat × Nat} :
    ((List.range t.nodeCount).map fun u => ((0, u) : Nat × Nat))[s]? = some p ↔
      s < t.nodeCount ∧ p = (0, s) := by
  rw [List.getElem?_map, Option.map_eq_some_iff]
  constructor
  · rintro ⟨u, hu, rfl⟩
    obtain ⟨hlt, heq⟩ := List.getElem?_eq_some_iff.mp hu
    rw [List.length_range] at hlt
    rw [List.getElem_range] at heq
    exact ⟨hlt, by rw [heq]⟩
  · rintro ⟨hlt, rfl⟩
    exact ⟨s, List.getElem?_range hlt, rfl⟩

/-- **A copy of the whole graph** holds every node once. -/
theorem GraphView.spreads_toGraph (t : GraphView) :
    t.toGraph.Spreads t ((List.range t.nodeCount).map (0, ·)) where
  nodeCount_eq := by rw [nodeCount_toGraph, List.length_map, List.length_range]
  nodup := List.nodup_range.map fun _ _ heq => congrArg Prod.snd heq
  lt spot hspot := by
    obtain ⟨u, hu, rfl⟩ := List.mem_map.mp hspot
    exact List.mem_range.mp hu
  label_eq {s spot} hs := by
    obtain ⟨hlt, rfl⟩ := getElem?_wholeSpots.mp hs
    rw [Graph.view_label, toGraph, List.getD_eq_getElem?_getD, List.getElem?_map,
      List.getElem?_range hlt]
    rfl
  labels_eq {x y p q} hx hy := by
    obtain ⟨-, rfl⟩ := getElem?_wholeSpots.mp hx
    obtain ⟨-, rfl⟩ := getElem?_wholeSpots.mp hy
    rw [if_pos rfl]
    rfl

/-- **A graph in two parts**: if linked nodes are in the same part, the parts side by side are the
graph. -/
theorem GraphView.exists_isIso_parts (t : GraphView) {keep : Nat → Bool}
    (h : ∀ {u v : Nat}, t.Linked u v → keep u = keep v) :
    ∃ f, IsIso f ((t.part keep).append (t.part fun u => !keep u)).view t ∧
      (∀ u < t.nodeCount, keep u = true → f (rank keep u) = u) ∧
      ∀ u < t.nodeCount, keep u = false →
        f ((t.part keep).nodeCount + rank (fun u => !keep u) u) = u := by
  let keeps : List (Nat → Bool) := [keep, fun u => !keep u]
  have hmem : ∀ {k u : Nat}, (k, u) ∈ t.spotsOfParts keeps ↔
      u < t.nodeCount ∧ k = if keep u then 0 else 1 := by
    intro k u
    rw [mem_spotsOfParts]
    refine and_congr_right fun _ => ?_
    match k with
    | 0 => cases hu : keep u <;> simp [keeps, hu]
    | 1 => cases hu : keep u <;> simp [keeps, hu]
    | k + 2 => cases hu : keep u <;> simp [keeps]
  have hsame : ∀ p ∈ t.spotsOfParts keeps, ∀ q ∈ t.spotsOfParts keeps,
      0 = 0 → t.Linked p.2 q.2 → p.1 = q.1 := by
    rintro ⟨k, u⟩ hp ⟨k', u'⟩ hq - hlinked
    rw [(hmem.mp hp).2, (hmem.mp hq).2, h hlinked]
  obtain ⟨F, hF, hspots⟩ := Graph.Spreads.exists_isIso (σ := fun _ => 0) (t.spreads_parts keeps)
    t.spreads_toGraph (IsIso.refl t) hsame
    (fun p hp => List.mem_map.mpr ⟨p.2, List.mem_range.mpr (hmem.mp hp).1, rfl⟩)
    (fun q hq => by
      obtain ⟨u, hu, rfl⟩ := List.mem_map.mp hq
      exact ⟨(_, u), hmem.mpr ⟨List.mem_range.mp hu, rfl⟩, rfl⟩)
  have hsend : ∀ {s k u : Nat}, (t.spotsOfParts keeps)[s]? = some (k, u) → F s = u := by
    intro s k u hs
    exact (congrArg Prod.snd (getElem?_wholeSpots.mp (hspots hs)).2).symm
  rw [parts_pair] at hF
  refine ⟨F, hF.trans t.isIso_toGraph, fun u hu hkeep => ?_, fun u hu hkeep => ?_⟩
  · refine hsend (k := 0) (getElem?_spotsOfParts.mpr ⟨keep, rfl, hu, hkeep, ?_⟩)
    exact (Nat.zero_add _).symm
  · refine hsend (k := 1) (getElem?_spotsOfParts.mpr ⟨_, rfl, hu, by rw [hkeep]; rfl, ?_⟩)
    rw [← t.parts_singleton keep]
    rfl

end GraphGrammar
