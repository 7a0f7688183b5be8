import GraphGrammar.Proofs.Rewrite.Choices

/-!
# Removing nodes

A left-only node takes all edges around it with it. An edge of which one endpoint stays is noted, as
one that has lost an endpoint. What the phase does is described on the list of the edges that are
there: those that touch a removed slot go, and those between a removed slot and one that stays are
noted, slot by slot.

## Main definitions

* `GraphGrammar.dropEdges` — the slots of edges without the edges of a kind.
* `GraphGrammar.looseAt` — the edges that lose their endpoint in a slot.
* `GraphGrammar.Rule.deletedPairs` — the slots that are removed, with their rule nodes.

## Main results

* `GraphGrammar.Rule.deleteNodes_eq` — the phase.
-/

namespace GraphGrammar

variable {labels : List (Option String)} {edges : List (Option Edge)}

/-! ### Edges of a kind -/

/-- The slots of edges without the edges that satisfy a condition. -/
def dropEdges (condition : Edge → Bool) (edges : List (Option Edge)) : List (Option Edge) :=
  edges.map (Option.filter fun e => !condition e)

theorem join_getElem?_dropEdges (condition : Edge → Bool) (edges : List (Option Edge)) (i : Nat) :
    ((dropEdges condition edges)[i]?).join =
      ((edges[i]?).join).filter fun e => !condition e := by
  rw [dropEdges, List.getElem?_map]
  cases edges[i]? <;> rfl

theorem dropEdges_dropEdges (condition condition' : Edge → Bool) (edges : List (Option Edge)) :
    dropEdges condition (dropEdges condition' edges) =
      dropEdges (fun e => condition' e || condition e) edges := by
  rw [dropEdges, dropEdges, List.map_map]
  refine List.map_congr_left fun e _ => ?_
  cases e with
  | none => rfl
  | some e => cases h : condition e <;> cases h' : condition' e <;> simp [Option.filter, h, h']

theorem present_dropEdges (condition : Edge → Bool) (edges : List (Option Edge)) :
    present (dropEdges condition edges) = (present edges).filter fun e => !condition e := by
  induction edges with
  | nil => rfl
  | cons e edges ih =>
    rw [present, dropEdges] at ih ⊢
    cases e with
    | none => exact ih
    | some e => cases h : condition e <;> simpa [Option.filter, present, h] using ih

theorem eraseSlots_slotsWhere (condition : Edge → Bool) (edges : List (Option Edge)) :
    eraseSlots (slotsWhere edges condition) edges = dropEdges condition edges := by
  refine List.ext_getElem? fun i => ?_
  rw [getElem?_eraseSlots, dropEdges, List.getElem?_map]
  cases hi : edges[i]? with
  | none => rfl
  | some e =>
    have hmem : i ∈ slotsWhere edges condition ↔ e.any condition = true := by
      rw [mem_slotsWhere, hi, Option.any_eq_true]
      rfl
    cases e with
    | none => simp
    | some e => cases h : condition e <;> simp_all [Option.filter]

theorem slotsWhere_dropEdges_self (condition : Edge → Bool) (edges : List (Option Edge)) :
    slotsWhere (dropEdges condition edges) condition = [] := by
  refine List.eq_nil_iff_forall_not_mem.mpr fun i hi => ?_
  obtain ⟨e, he, hcondition⟩ := mem_slotsWhere.mp hi
  rw [join_getElem?_dropEdges, Option.filter_eq_some_iff] at he
  simp [hcondition] at he

/-- What is read off the edges of a kind, slot by slot. -/
theorem filterMap_slotsWhere {β : Type} (condition : Edge → Bool) (f : Edge → Option β)
    (edges : List (Option Edge)) :
    ((slotsWhere edges condition).filterMap fun i => ((edges[i]?).join).bind f) =
      ((present edges).filter condition).filterMap f := by
  have hedges : (List.range edges.length).map (fun i => (edges[i]?).join) = edges := by
    refine List.ext_getElem (by simp) fun i hi hi' => ?_
    simp [List.getElem?_eq_getElem hi']
  have hright : ((present edges).filter condition).filterMap f =
      edges.filterMap fun o => o.bind fun e => if condition e then f e else none := by
    rw [present, List.filterMap_filter, List.filterMap_filterMap]
    rfl
  rw [hright, slotsWhere, List.filterMap_filter]
  conv_rhs => rw [← hedges, List.filterMap_map]
  refine List.filterMap_congr fun i _ => ?_
  rw [Function.comp_apply]
  cases (edges[i]?).join <;> rfl

/-! ### Removing edges one after the other -/

theorem foldlM_removeEdge_ofSlots (labels : List (Option String)) {ids : List Nat}
    (hnodup : ids.Nodup) (halive : ∀ i ∈ ids, ∃ e, (edges[i]?).join = some e) :
    ids.foldlM Arena.removeEdge (Arena.ofSlots labels edges) =
      .ok (Arena.ofSlots labels (eraseSlots ids edges)) := by
  induction ids generalizing edges with
  | nil =>
    rw [eraseSlots_nil]
    rfl
  | cons i ids ih =>
    obtain ⟨hi, hnodup⟩ := List.nodup_cons.mp hnodup
    obtain ⟨e, he⟩ := halive i (List.mem_cons_self ..)
    rw [List.foldlM_cons, Arena.removeEdge_ofSlots he, set_none_eq_eraseSlots]
    have halive' : ∀ j ∈ ids, ∃ e, ((eraseSlots [i] edges)[j]?).join = some e := by
      intro j hj
      have hji : j ∉ [i] := fun h => hi (List.mem_singleton.mp h ▸ hj)
      rw [getElem?_eraseSlots_of_notMem hji]
      exact halive j (List.mem_cons_of_mem _ hj)
    have := ih hnodup halive'
    rw [eraseSlots_eraseSlots, List.singleton_append] at this
    exact this

/-! ### One node -/

namespace Rule

variable {r : Rule} {image : Images} {n : Nat}

/-- What is noted of an edge around the slot of a left-only node. -/
def looseEdge? (deleted : List (Nat × Nat)) (slot source : Nat) (e : Edge) : Option LooseEdge :=
  if deleted.any fun d => d.1 == e.other slot then none else some ⟨source, e.other slot, e.label⟩

/-- The edges that lose their endpoint in a slot, and keep the other one. -/
def looseAt (deleted : List (Nat × Nat)) (edges : List Edge) (d : Nat × Nat) : List LooseEdge :=
  (edges.filter (·.touches d.1)).filterMap (looseEdge? deleted d.1 d.2)

/-- Edges do not matter whose other endpoint is removed as well. -/
theorem looseAt_filter {deleted : List (Nat × Nat)} {edges : List Edge} {keep : Edge → Bool}
    {d : Nat × Nat} (h : ∀ e ∈ edges, keep e = false → e.touches d.1 = true →
      ∃ d' ∈ deleted, d'.1 = e.other d.1) :
    looseAt deleted (edges.filter keep) d = looseAt deleted edges d := by
  rw [looseAt, looseAt, List.filter_filter, List.filterMap_filter, List.filterMap_filter]
  refine List.filterMap_congr fun e he => ?_
  cases htouch : e.touches d.1
  · simp
  · cases hkeep : keep e
    · obtain ⟨d', hd', hother⟩ := h e he hkeep htouch
      have : (deleted.any fun d' => d'.1 == e.other d.1) = true :=
        List.any_eq_true.mpr ⟨d', hd', beq_iff_eq.mpr hother⟩
      simp [looseEdge?, this]
    · simp

theorem detachEdge_eq (deleted : List (Nat × Nat)) (slot source : Nat) (loose : List LooseEdge)
    {i : Nat} {e : Edge} (he : (edges[i]?).join = some e) :
    detachEdge deleted slot source (Arena.ofSlots labels edges, loose) i =
      .ok (Arena.ofSlots labels (edges.set i none),
        loose ++ (looseEdge? deleted slot source e).toList) := by
  rw [detachEdge, looseEdge?]
  simp only [Arena.edge_ofSlots he, Arena.removeEdge_ofSlots he, bind, Except.bind]
  split <;> simp [pure, Except.pure]

theorem foldlM_detachEdge_eq (labels : List (Option String)) (deleted : List (Nat × Nat))
    (slot source : Nat) (loose : List LooseEdge) {ids : List Nat} (hnodup : ids.Nodup)
    (halive : ∀ i ∈ ids, ∃ e, (edges[i]?).join = some e) :
    ids.foldlM (detachEdge deleted slot source) (Arena.ofSlots labels edges, loose) =
      .ok (Arena.ofSlots labels (eraseSlots ids edges),
        loose ++ ids.filterMap fun i =>
          ((edges[i]?).join).bind (looseEdge? deleted slot source)) := by
  induction ids generalizing edges loose with
  | nil =>
    rw [eraseSlots_nil, List.filterMap_nil, List.append_nil]
    rfl
  | cons i ids ih =>
    obtain ⟨hi, hnodup⟩ := List.nodup_cons.mp hnodup
    obtain ⟨e, he⟩ := halive i (List.mem_cons_self ..)
    have hother : ∀ j ∈ ids, (eraseSlots [i] edges)[j]? = edges[j]? := by
      intro j hj
      have hji : j ∉ [i] := fun h => hi (List.mem_singleton.mp h ▸ hj)
      exact getElem?_eraseSlots_of_notMem hji edges
    have halive' : ∀ j ∈ ids, ∃ e, ((eraseSlots [i] edges)[j]?).join = some e := by
      intro j hj
      rw [hother j hj]
      exact halive j (List.mem_cons_of_mem _ hj)
    have hrest := ih (loose ++ (looseEdge? deleted slot source e).toList) hnodup halive'
    rw [eraseSlots_eraseSlots, List.singleton_append] at hrest
    rw [List.foldlM_cons, detachEdge_eq deleted slot source loose he, set_none_eq_eraseSlots]
    refine hrest.trans ?_
    rw [List.append_assoc, List.filterMap_cons, he, Option.bind_some,
      List.filterMap_congr fun j hj => by rw [hother j hj]]
    cases looseEdge? deleted slot source e <;> rfl

/-- **Removing one node** takes all edges around it away. -/
theorem deleteNode_eq {deleted : List (Nat × Nat)} {d : Nat × Nat} {label : String}
    (hd : d ∈ deleted) (hlabel : (labels[d.1]?).join = some label) (loose : List LooseEdge) :
    deleteNode deleted (Arena.ofSlots labels edges, loose) d =
      .ok (Arena.ofSlots (labels.set d.1 none) (dropEdges (·.touches d.1) edges),
        loose ++ looseAt deleted (present edges) d) := by
  let loops : Edge → Bool := fun e => e.touches d.1 && e.isSelfLoop
  have halive : ∀ (edges : List (Option Edge)) (condition : Edge → Bool),
      ∀ i ∈ slotsWhere edges condition, ∃ e, (edges[i]?).join = some e := by
    intro edges condition i hi
    obtain ⟨e, he, -⟩ := mem_slotsWhere.mp hi
    exact ⟨e, he⟩
  have hdrop : dropEdges (·.touches d.1) (dropEdges loops edges) =
      dropEdges (·.touches d.1) edges := by
    rw [dropEdges_dropEdges]
    refine congrArg (dropEdges · edges) (funext fun e => ?_)
    cases h : e.touches d.1 <;> simp [loops, h]
  have hloose : looseAt deleted (present (dropEdges loops edges)) d =
      looseAt deleted (present edges) d := by
    rw [present_dropEdges]
    refine looseAt_filter fun e _ hloop _ => ⟨d, hd, ?_⟩
    simp only [loops, Bool.not_eq_false', Bool.and_eq_true, Edge.isSelfLoop, beq_iff_eq,
      Edge.touches, Bool.or_eq_true] at hloop
    rw [Edge.other]
    split <;> omega
  have hincident := foldlM_detachEdge_eq labels deleted d.1 d.2 loose
    (nodup_slotsWhere (dropEdges loops edges) (·.touches d.1)) (halive _ _)
  rw [eraseSlots_slotsWhere, hdrop, filterMap_slotsWhere, ← looseAt, hloose] at hincident
  rw [deleteNode, Arena.selfLoops_ofSlots hlabel]
  simp only [bind, Except.bind, foldlM_removeEdge_ofSlots labels (nodup_slotsWhere _ _)
    (halive edges _), eraseSlots_slotsWhere, Arena.incident_ofSlots hlabel]
  rw [touching, hincident]
  dsimp only
  rw [Arena.removeNode_ofSlots hlabel (slotsWhere_dropEdges_self _ _)]
  rfl

/-! ### All left-only nodes -/

/-- The slots of nodes with the slots of some rule nodes emptied. -/
def clearSlots (deleted : List (Nat × Nat)) (labels : List (Option String)) :
    List (Option String) :=
  labels.mapIdx fun s label => if deleted.any fun d => d.1 == s then none else label

theorem getElem?_clearSlots (deleted : List (Nat × Nat)) (labels : List (Option String)) (s : Nat) :
    (clearSlots deleted labels)[s]? =
      (labels[s]?).map fun label => if deleted.any fun d => d.1 == s then none else label := by
  rw [clearSlots, List.getElem?_mapIdx]

theorem clearSlots_cons (d : Nat × Nat) (deleted : List (Nat × Nat))
    (labels : List (Option String)) :
    clearSlots deleted (labels.set d.1 none) = clearSlots (d :: deleted) labels := by
  refine List.ext_getElem? fun s => ?_
  rw [getElem?_clearSlots, getElem?_clearSlots, List.getElem?_set]
  by_cases hs : d.1 = s
  · subst hs
    by_cases hlt : d.1 < labels.length <;> simp [hlt]
  · rw [if_neg hs]
    refine congrArg (Option.map · _) (funext fun label => ?_)
    rw [List.any_cons, beq_false_of_ne hs, Bool.false_or]

theorem foldlM_deleteNode_eq {deleted rest : List (Nat × Nat)}
    (hsub : ∀ d ∈ rest, d ∈ deleted) (hnodup : (rest.map Prod.fst).Nodup)
    (halive : ∀ d ∈ rest, ∃ label, (labels[d.1]?).join = some label) (loose : List LooseEdge) :
    rest.foldlM (deleteNode deleted) (Arena.ofSlots labels edges, loose) =
      .ok (Arena.ofSlots (clearSlots rest labels)
          (dropEdges (fun e => rest.any fun d => e.touches d.1) edges),
        loose ++ rest.flatMap (looseAt deleted (present edges))) := by
  induction rest generalizing labels edges loose with
  | nil =>
    have hlabels : clearSlots [] labels = labels := by
      refine List.ext_getElem? fun s => ?_
      rw [getElem?_clearSlots]
      simp
    have hedges : dropEdges (fun e => ([] : List (Nat × Nat)).any fun d => e.touches d.1) edges =
        edges := by
      refine (List.map_congr_left fun e _ => ?_).trans (List.map_id edges)
      cases e <;> rfl
    rw [hlabels, hedges, List.flatMap_nil, List.append_nil]
    rfl
  | cons d rest ih =>
    obtain ⟨hd, hnodup⟩ := List.nodup_cons.mp hnodup
    obtain ⟨label, hlabel⟩ := halive d (List.mem_cons_self ..)
    have hne : ∀ d' ∈ rest, d.1 ≠ d'.1 := fun d' hd' heq =>
      hd (heq ▸ List.mem_map_of_mem hd')
    have halive' : ∀ d' ∈ rest, ∃ label, ((labels.set d.1 none)[d'.1]?).join = some label := by
      intro d' hd'
      rw [List.getElem?_set_ne (hne d' hd')]
      exact halive d' (List.mem_cons_of_mem _ hd')
    have hloose : rest.flatMap (looseAt deleted (present (dropEdges (·.touches d.1) edges))) =
        rest.flatMap (looseAt deleted (present edges)) := by
      refine List.flatMap_congr fun d' hd' => ?_
      rw [present_dropEdges]
      refine looseAt_filter fun e _ htouch htouch' => ⟨d, hsub d (List.mem_cons_self ..), ?_⟩
      have := hne d' hd'
      simp only [Bool.not_eq_false', Edge.touches, Bool.or_eq_true, beq_iff_eq] at htouch htouch'
      rw [Edge.other]
      split <;> omega
    rw [List.foldlM_cons, deleteNode_eq (hsub d (List.mem_cons_self ..)) hlabel]
    refine (ih (fun d' hd' => hsub d' (List.mem_cons_of_mem _ hd')) hnodup halive' _).trans ?_
    rw [clearSlots_cons, hloose, dropEdges_dropEdges, List.append_assoc, List.flatMap_cons]
    rfl

/-- The slots of the left-only nodes with these nodes, slots ascending. -/
def deletedPairs (r : Rule) (image : Images) : List (Nat × Nat) :=
  ((r.nodes.zipIdx.filter fun (n, _) => n.role == .leftOnly).map fun (_, v) =>
    (image.slot v, v)).mergeSort fun a b => a.1 ≤ b.1

theorem mem_deletedPairs {d : Nat × Nat} : d ∈ r.deletedPairs image ↔
    r.roleOf d.2 = some .leftOnly ∧ image.slot d.2 = d.1 := by
  rw [deletedPairs, List.mem_mergeSort, List.mem_map]
  constructor
  · rintro ⟨⟨node, v⟩, hmem, rfl⟩
    obtain ⟨hnode, hrole⟩ := List.mem_filter.mp hmem
    rw [List.mem_zipIdx_iff_getElem?] at hnode
    refine ⟨?_, rfl⟩
    rw [roleOf, hnode, Option.map_some, eq_of_beq hrole]
  · rintro ⟨hrole, hslot⟩
    obtain ⟨node, hnode, hrole⟩ := Option.map_eq_some_iff.mp hrole
    refine ⟨(node, d.2), List.mem_filter.mpr ⟨?_, beq_iff_eq.mpr hrole⟩, Prod.ext hslot rfl⟩
    exact List.mem_zipIdx_iff_getElem?.mpr hnode

theorem Placed.slot?_of_mem_deletedPairs (h : r.Placed image n) {d : Nat × Nat}
    (hd : d ∈ r.deletedPairs image) : image.slot? d.2 = some d.1 ∧ d.1 < n := by
  obtain ⟨hrole, hslot⟩ := mem_deletedPairs.mp hd
  rw [← hslot]
  exact h.slot?_eq hrole rfl

theorem nodup_deletedPairs (r : Rule) (image : Images) : (r.deletedPairs image).Nodup := by
  rw [deletedPairs, (List.mergeSort_perm _ _).nodup_iff]
  refine List.Nodup.of_map Prod.snd ?_
  rw [List.map_map]
  refine ((List.filter_sublist).map Prod.snd).nodup ?_
  rw [List.zipIdx_map_snd]
  exact List.nodup_range'

theorem Placed.nodup_map_fst_deletedPairs (h : r.Placed image n) :
    ((r.deletedPairs image).map Prod.fst).Nodup := by
  refine List.Nodup.map_on (fun d hd d' hd' heq => ?_) (nodup_deletedPairs r image)
  have hslot := (h.slot?_of_mem_deletedPairs hd).1
  have hslot' := (h.slot?_of_mem_deletedPairs hd').1
  exact Prod.ext heq (h.inj (heq ▸ hslot) hslot')

theorem leftOnlySlots_eq (h : r.Placed image n) :
    r.leftOnlySlots image = .ok (r.deletedPairs image) := by
  rw [leftOnlySlots, mapM_eq_ok (g := fun p : RuleNode × Nat => (image.slot p.2, p.2))]
  · rfl
  · rintro ⟨node, v⟩ hmem
    obtain ⟨hnode, hrole⟩ := List.mem_filter.mp hmem
    rw [List.mem_zipIdx_iff_getElem?] at hnode
    have hv : r.roleOf v = some .leftOnly := by rw [roleOf, hnode, Option.map_some, eq_of_beq hrole]
    dsimp only
    rw [imageSlot_eq (h.slot?_eq hv rfl).1]
    rfl

/-- The edges that lose one endpoint, in the order in which they are noted. -/
def looseEdges (r : Rule) (image : Images) (edges : List Edge) : List LooseEdge :=
  (r.deletedPairs image).flatMap (looseAt (r.deletedPairs image) edges)

/-- Whether an edge touches the slot of a left-only node. -/
def touchesDeleted (r : Rule) (image : Images) (e : Edge) : Bool :=
  (r.deletedPairs image).any fun d => e.touches d.1

/-- **Removing the left-only nodes** takes all edges around them away. -/
theorem deleteNodes_eq (h : r.Placed image n)
    (halive : ∀ s < n, ∃ label, (labels[s]?).join = some label) (edges : List (Option Edge)) :
    r.deleteNodes image (Arena.ofSlots labels edges) =
      .ok (Arena.ofSlots (clearSlots (r.deletedPairs image) labels)
        (dropEdges (r.touchesDeleted image) edges), r.looseEdges image (present edges)) := by
  rw [deleteNodes, leftOnlySlots_eq h]
  refine (foldlM_deleteNode_eq (fun _ hd => hd) h.nodup_map_fst_deletedPairs (fun d hd => ?_)
    []).trans ?_
  · exact halive d.1 (h.slot?_of_mem_deletedPairs hd).2
  · rw [List.nil_append]
    rfl

end Rule

end GraphGrammar
