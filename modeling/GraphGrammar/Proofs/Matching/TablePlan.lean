import GraphGrammar.Proofs.Loops
import GraphGrammar.Proofs.Matching.PlacingTable

/-!
# Plans by tables

A table of places tells which of two nodes was placed first. So the neighbours with earlier places
are those among the nodes placed before, and sorted by place they stand in the order of placing. A
constraint is entered at the last place of its nodes, where all the others were placed before. By
tables every node is therefore asked for the same as by going back over the placed nodes.

## Main results

* `GraphGrammar.getD_placesIn` — the place of a node.
* `GraphGrammar.Pattern.earlierNeighbours_eq` — the neighbours that were placed before.
* `GraphGrammar.Pattern.getD_dueAt` — the constraints that fall due.
* `GraphGrammar.Pattern.tableSteps_eq` — the steps of the plan.
* `GraphGrammar.Pattern.tablePlan?_eq` — the plan.
-/

namespace GraphGrammar

/-! ### Places -/

/-- Entering places one after the other. -/
theorem getElem?_foldl_set_zipIdx {order places : List Nat} (hnodup : order.Nodup)
    (hlt : ∀ v ∈ order, v < places.length) (k v : Nat) :
    ((order.zipIdx k).foldl (fun places entry => places.set entry.1 entry.2) places)[v]? =
      if v ∈ order then some (k + order.idxOf v) else places[v]? := by
  induction order generalizing places k with
  | nil => simp
  | cons u order ih =>
    obtain ⟨hu, hnodup⟩ := List.nodup_cons.mp hnodup
    obtain ⟨hulen, hlt⟩ := List.forall_mem_cons.mp hlt
    rw [List.zipIdx_cons, List.foldl_cons, ih hnodup (by simpa using hlt)]
    by_cases huv : u = v
    · subst huv
      rw [if_neg hu, if_pos (List.mem_cons_self ..), List.getElem?_set_self hulen,
        List.idxOf_cons_self]
      rfl
    · have hmem : v ∈ u :: order ↔ v ∈ order := by simp [Ne.symm huv]
      rw [List.getElem?_set_ne huv, List.idxOf_cons_ne _ huv, if_congr hmem rfl rfl,
        Nat.add_right_comm]
      rfl

/-- **The table of places** has for every node how many were placed before. -/
theorem getD_placesIn {n : Nat} {order : List Nat} (h : order.Perm (List.range n)) {v : Nat}
    (hv : v ∈ order) : (placesIn n order).getD v 0 = order.idxOf v := by
  have hlt : ∀ u ∈ order, u < (List.replicate n 0).length := fun u hu =>
    List.length_replicate.symm ▸ List.mem_range.mp (h.mem_iff.mp hu)
  have hplaces := getElem?_foldl_set_zipIdx (h.nodup_iff.mpr List.nodup_range) hlt 0 v
  rw [if_pos hv, Nat.zero_add] at hplaces
  rw [List.getD_eq_getElem?_getD, placesIn, hplaces, Option.getD_some]

/-- What stands in front of a place are the members with smaller places. -/
theorem mem_take_idxOf_iff {order : List Nat} {u v : Nat} :
    u ∈ order.take (order.idxOf v) ↔ order.idxOf u < order.idxOf v := by
  by_cases hu : u ∈ order
  · exact List.mem_take_iff_idxOf_lt hu
  · refine iff_of_false (fun h => hu (List.mem_of_mem_take h)) (Nat.not_lt_of_ge ?_)
    rw [List.idxOf_eq_length hu]
    exact List.idxOf_le_length

/-- Before the first place of a member is what stands in front of it. -/
theorem take_idxOf_append_cons {before : List Nat} {v : Nat} (h : v ∉ before) (after : List Nat) :
    (before ++ v :: after).take ((before ++ v :: after).idxOf v) = before := by
  rw [List.idxOf_append_of_notMem h, List.idxOf_cons_self, Nat.add_zero, List.take_left]

/-- A list in which nothing occurs twice ascends by place. -/
theorem pairwise_idxOf_lt {order : List Nat} (h : order.Nodup) :
    order.Pairwise fun u v => order.idxOf u < order.idxOf v := by
  refine List.pairwise_iff_getElem.mpr fun i j hi hj hij => ?_
  rwa [h.idxOf_getElem i hi, h.idxOf_getElem j hj]

theorem zipIdx_eq_map_idxOf {order : List Nat} (h : order.Nodup) :
    order.zipIdx = order.map fun v => (v, order.idxOf v) := by
  refine List.ext_getElem (by simp) fun i hi hi' => ?_
  rw [List.getElem_zipIdx, List.getElem_map, h.idxOf_getElem]
  simp

/-! ### Entries of the plan -/

/-- Sorting by a key and leaving out repetitions makes a list ascend by this key. -/
theorem pairwise_eraseReps_mergeSort {α : Type} [BEq α] [LawfulBEq α] (key : α → Nat) {l : List α}
    (hinj : ∀ a ∈ l, ∀ b ∈ l, key a = key b → a = b) :
    (l.mergeSort fun a b => decide (key a ≤ key b)).eraseReps.Pairwise
      fun a b => key a < key b := by
  have hsorted : (l.mergeSort fun a b => decide (key a ≤ key b)).Pairwise fun a b =>
      a ∈ l ∧ b ∈ l ∧ key a ≤ key b := by
    refine (List.pairwise_mergeSort (fun a b c hab hbc => ?_) (fun a b => ?_) l).imp_of_mem
      fun ha hb hab => ⟨List.mem_mergeSort.mp ha, List.mem_mergeSort.mp hb, of_decide_eq_true hab⟩
    · exact decide_eq_true ((of_decide_eq_true hab).trans (of_decide_eq_true hbc))
    · simpa using Nat.le_total (key a) (key b)
  have hnodup := nodup_eraseReps
    (fun a b ⟨ha, hb, hab⟩ ⟨_, _, hba⟩ => hinj a ha b hb (Nat.le_antisymm hab hba)) hsorted
  refine ((hsorted.sublist (eraseReps_sublist _)).and hnodup).imp fun ⟨⟨ha, hb, hle⟩, hne⟩ => ?_
  exact Nat.lt_of_le_of_ne hle fun heq => hne (hinj _ ha _ hb heq)

/-- Entering values one after the other at their keys. -/
theorem foldl_modify_eq {α : Type} (key : α → Nat) (n : Nat) (l : List α) :
    l.foldl (fun entries a => entries.modify (key a) (· ++ [a])) (List.replicate n []) =
      (List.range n).map fun i => l.filter fun a => key a == i := by
  induction l using List.reverseRecOn with
  | nil => exact List.ext_getElem (by simp) fun i hi hi' => by simp
  | append_singleton l a ih =>
    rw [List.foldl_append, ih]
    refine List.ext_getElem (by simp) fun i hi hi' => ?_
    simp only [List.foldl_cons, List.foldl_nil, List.getElem_modify, List.getElem_map,
      List.getElem_range, List.filter_append]
    by_cases hkey : key a = i <;> simp [hkey]

/-- The last place that a member has is that of the member after which there is no other. -/
theorem max?_map_idxOf_eq_iff {order nodes : List Nat} (hne : nodes ≠ [])
    (hnodes : ∀ u ∈ nodes, u ∈ order) {v : Nat} :
    ((nodes.map order.idxOf).max?).getD 0 = order.idxOf v ↔
      v ∈ nodes ∧ ∀ u ∈ nodes, u = v ∨ order.idxOf u < order.idxOf v := by
  obtain ⟨last, hlast⟩ := Option.isSome_iff_exists.mp
    (List.isSome_max?_iff.mpr (mt List.map_eq_nil_iff.mp hne) :
      ((nodes.map order.idxOf).max?).isSome = true)
  obtain ⟨hmem, hle⟩ := List.max?_eq_some_iff.mp hlast
  obtain ⟨w, hw, rfl⟩ := List.mem_map.mp hmem
  rw [hlast, Option.getD_some, List.idxOf_inj (hnodes w hw)]
  constructor
  · rintro rfl
    refine ⟨hw, fun u hu => ?_⟩
    rcases Nat.lt_or_eq_of_le (hle _ (List.mem_map_of_mem hu)) with hlt | heq
    · exact .inr hlt
    · exact .inl ((List.idxOf_inj (hnodes u hu)).mp heq)
  · rintro ⟨hv, hbefore⟩
    exact (hbefore w hw).resolve_right (Nat.not_lt_of_ge (hle _ (List.mem_map_of_mem hv)))

theorem Constraint.nodes_ne_nil (c : Constraint) : c.nodes ≠ [] := by
  cases c <;> exact List.cons_ne_nil _ _

namespace Pattern

variable {p : Pattern} {order : List Nat} {placeOf : Nat → Nat} {u v : Nat}

theorem mem_earlierNeighbours_iff (p : Pattern) (placeOf : Nat → Nat) (v i u : Nat) :
    u ∈ p.earlierNeighbours placeOf v i ↔
      p.graph.hasEdge v u = true ∧ u ≠ v ∧ placeOf u < i := by
  simp only [earlierNeighbours, mem_eraseReps, List.mem_mergeSort, List.mem_map, List.mem_filter,
    GraphView.hasEdge, List.any_eq_true, Bool.and_eq_true, bne_iff_ne, decide_eq_true_iff,
    beq_iff_eq]
  constructor
  · rintro ⟨e, ⟨he, hne, hlt⟩, rfl⟩
    exact ⟨⟨e, he, rfl⟩, hne, hlt⟩
  · rintro ⟨⟨e, he, rfl⟩, hne, hlt⟩
    exact ⟨e, ⟨he, hne, hlt⟩, rfl⟩

theorem pairwise_earlierNeighbours (p : Pattern) (placeOf : Nat → Nat)
    (hinj : ∀ u < p.graph.nodeCount, ∀ w < p.graph.nodeCount, placeOf u = placeOf w → u = w)
    (v i : Nat) :
    (p.earlierNeighbours placeOf v i).Pairwise fun u w => placeOf u < placeOf w := by
  refine pairwise_eraseReps_mergeSort placeOf fun u hu w hw => ?_
  obtain ⟨e, he, rfl⟩ := List.mem_map.mp hu
  obtain ⟨e', he', rfl⟩ := List.mem_map.mp hw
  exact hinj _ (p.graph.mem_lt (List.mem_of_mem_filter he)).2 _
    (p.graph.mem_lt (List.mem_of_mem_filter he')).2

/-- **The neighbours with earlier places** are found in the order of placing, each once. -/
theorem earlierNeighbours_eq (p : Pattern) (horder : order.Perm (List.range p.graph.nodeCount))
    (hplace : ∀ u ∈ order, placeOf u = order.idxOf u) (v : Nat) :
    p.earlierNeighbours placeOf v (order.idxOf v) =
      (order.take (order.idxOf v)).filter fun u => p.graph.hasEdge v u := by
  have hnode : ∀ u < p.graph.nodeCount, u ∈ order := fun u hu =>
    horder.mem_iff.mpr (List.mem_range.mpr hu)
  have hfound := p.pairwise_earlierNeighbours placeOf (fun u hu w hw heq => by
    rw [hplace u (hnode u hu), hplace w (hnode w hw)] at heq
    exact (List.idxOf_inj (hnode u hu)).mp heq) v (order.idxOf v)
  have hbefore : ((order.take (order.idxOf v)).filter fun u => p.graph.hasEdge v u).Pairwise
      fun u w => placeOf u < placeOf w := by
    refine (((pairwise_idxOf_lt (horder.nodup_iff.mpr List.nodup_range)).sublist
      (List.take_sublist _ _)).filter _).imp_of_mem fun {a b} ha hb hab => ?_
    rwa [hplace a (List.mem_of_mem_take (List.mem_of_mem_filter ha)),
      hplace b (List.mem_of_mem_take (List.mem_of_mem_filter hb))]
  refine hfound.eq_of_mem_iff hbefore fun u => ?_
  rw [mem_earlierNeighbours_iff, List.mem_filter, mem_take_idxOf_iff]
  constructor
  · rintro ⟨hedge, -, hlt⟩
    exact ⟨hplace u (hnode u (GraphView.lt_of_hasEdge hedge).2) ▸ hlt, hedge⟩
  · rintro ⟨hlt, hedge⟩
    refine ⟨hedge, ?_, (hplace u (hnode u (GraphView.lt_of_hasEdge hedge).2)).symm ▸ hlt⟩
    rintro rfl
    exact Nat.lt_irrefl _ hlt

/-- **A constraint falls due** where its last node is placed. -/
theorem getD_dueAt (hp : p.inRange = true) (horder : order.Perm (List.range p.graph.nodeCount))
    (hplace : ∀ u ∈ order, placeOf u = order.idxOf u) (hv : v ∈ order) :
    (p.dueAt placeOf).getD (order.idxOf v) [] = p.constraints.filter fun c =>
      c.nodes.contains v &&
        c.nodes.all fun u => u == v || (order.take (order.idxOf v)).contains u := by
  have hlt : order.idxOf v < p.graph.nodeCount := by
    rw [← List.length_range (n := p.graph.nodeCount), ← horder.length_eq]
    exact List.idxOf_lt_length_of_mem hv
  rw [dueAt, foldl_modify_eq, List.getD_eq_getElem?_getD, List.getElem?_map,
    List.getElem?_range hlt, Option.map_some, Option.getD_some]
  refine List.filter_congr fun c hc => ?_
  have hnodes : ∀ u ∈ c.nodes, u ∈ order := fun u hu => by
    have hrange := List.all_eq_true.mp (List.all_eq_true.mp hp c hc) u hu
    exact horder.mem_iff.mpr (List.mem_range.mpr (of_decide_eq_true hrange))
  have hplaces : c.nodes.map placeOf = c.nodes.map order.idxOf :=
    List.map_congr_left fun u hu => hplace u (hnodes u hu)
  rw [hplaces, Bool.eq_iff_iff, beq_iff_eq, max?_map_idxOf_eq_iff c.nodes_ne_nil hnodes]
  simp only [Bool.and_eq_true, List.contains_iff_mem, List.all_eq_true, Bool.or_eq_true,
    beq_iff_eq, mem_take_idxOf_iff]

/-! ### Weights -/

/-- Counting references fails if one is to no node. -/
theorem foldlM_count_eq_none {n : Nat} {l ws : List Nat} (h : ∃ v ∈ l, ¬v < n) :
    l.foldlM (fun ws v => if v < n then some (ws.modify v (· + 1)) else none) ws = none := by
  induction l generalizing ws with
  | nil => obtain ⟨v, hv, -⟩ := h; exact absurd hv List.not_mem_nil
  | cons u l ih =>
    rw [List.foldlM_cons]
    split
    · next hu =>
      refine ih ?_
      obtain ⟨v, hv, hlt⟩ := h
      rcases List.mem_cons.mp hv with rfl | hv
      · exact absurd hu hlt
      · exact ⟨v, hv, hlt⟩
    · rfl

/-- Otherwise it counts how often each node is referred to. -/
theorem exists_foldlM_count_eq {n : Nat} {l ws : List Nat} (hlength : ws.length = n)
    (h : ∀ v ∈ l, v < n) : ∃ ws',
    l.foldlM (fun ws v => if v < n then some (ws.modify v (· + 1)) else none) ws = some ws' ∧
      ∀ v, ws'.getD v 0 = ws.getD v 0 + l.count v := by
  induction l generalizing ws with
  | nil => exact ⟨ws, rfl, fun v => rfl⟩
  | cons u l ih =>
    obtain ⟨hu, hl⟩ := List.forall_mem_cons.mp h
    obtain ⟨ws', hfold, hcount⟩ := ih ((List.length_modify ..).trans hlength) hl
    refine ⟨ws', by rw [List.foldlM_cons, if_pos hu]; exact hfold, fun v => ?_⟩
    rw [hcount, List.count_cons]
    by_cases huv : u = v
    · subst huv
      simp [hlength, hu]
      omega
    · simp [huv]

theorem inRange_iff : p.inRange = true ↔
    ∀ v ∈ p.constraints.flatMap Constraint.nodes, v < p.graph.nodeCount := by
  simp only [inRange, List.all_eq_true, decide_eq_true_iff, List.mem_flatMap]
  constructor
  · rintro h v ⟨c, hc, hv⟩
    exact h c hc v hv
  · exact fun h c hc v hv => h v ⟨c, hc, hv⟩

/-- **The weights** are there if all references are to nodes, and then they are the numbers of
references. -/
theorem exists_weights?_eq (hp : p.inRange = true) :
    ∃ weights, p.weights? = some weights ∧ ∀ v, weights.getD v 0 = p.weight v := by
  have hlength : (List.replicate p.graph.nodeCount 0).length = p.graph.nodeCount :=
    List.length_replicate
  obtain ⟨weights, hweights, hcount⟩ := exists_foldlM_count_eq hlength (inRange_iff.mp hp)
  refine ⟨weights, hweights, fun v => ?_⟩
  have hzero : (List.replicate p.graph.nodeCount 0).getD v 0 = 0 := by
    rw [List.getD_eq_getElem?_getD, List.getElem?_replicate]
    split <;> rfl
  rw [hcount, hzero, Nat.zero_add, weight]

theorem weights?_eq_none (hp : ¬p.inRange = true) : p.weights? = none := by
  simp only [inRange_iff, not_forall] at hp
  obtain ⟨v, hv, hlt⟩ := hp
  exact foldlM_count_eq_none ⟨v, hv, hlt⟩

/-! ### The plan -/

/-- Going on after some nodes, every node finds those before it placed. -/
theorem steps_eq_map (p : Pattern) (placed : List Nat) {rest : List Nat}
    (h : (placed ++ rest).Nodup) : p.steps placed rest =
      rest.map fun v => p.step ((placed ++ rest).take ((placed ++ rest).idxOf v)) v := by
  induction rest generalizing placed with
  | nil => rfl
  | cons v rest ih =>
    have happend : placed ++ v :: rest = (placed ++ [v]) ++ rest := by
      rw [List.append_assoc, List.singleton_append]
    have hv : v ∉ placed := fun hv =>
      List.disjoint_of_nodup_append h hv (List.mem_cons_self ..)
    rw [steps, List.map_cons, take_idxOf_append_cons hv, happend,
      ih (placed ++ [v]) (happend ▸ h)]

/-- **The steps by tables** are those of going back over the placed nodes, but for the constraints
that fall due. -/
theorem tableSteps_eq_map (p : Pattern) (horder : order.Perm (List.range p.graph.nodeCount)) :
    p.tableSteps order = order.map fun v =>
      { p.step (order.take (order.idxOf v)) v with
        checks := (p.dueAt fun v => (placesIn p.graph.nodeCount order).getD v 0).getD
          (order.idxOf v) [] } := by
  rw [tableSteps, zipIdx_eq_map_idxOf (horder.nodup_iff.mpr List.nodup_range), List.map_map]
  refine List.map_congr_left fun v _ => ?_
  simp only [Function.comp_apply, tableStep, step,
    p.earlierNeighbours_eq horder fun u hu => getD_placesIn horder hu]
  rfl

/-- If the constraints refer to nodes, the same fall due as well. -/
theorem tableSteps_eq (hp : p.inRange = true) (horder : order.Perm (List.range p.graph.nodeCount)) :
    p.tableSteps order = p.steps [] order := by
  rw [p.tableSteps_eq_map horder, p.steps_eq_map [] (horder.nodup_iff.mpr List.nodup_range),
    List.nil_append]
  refine List.map_congr_left fun v hv => ?_
  rw [getD_dueAt hp horder (fun u hu => getD_placesIn horder hu) hv]
  rfl

/-- **The plan by tables** is the plan. -/
theorem tablePlan?_eq (p : Pattern) :
    p.tablePlan? = if p.inRange then some (p.steps [] p.placingOrder) else none := by
  by_cases hp : p.inRange = true
  · obtain ⟨weights, hweights, hcount⟩ := exists_weights?_eq hp
    rw [tablePlan?, hweights, Option.map_some, if_pos hp, funext hcount, GraphView.tableOrder_eq,
      ← placingOrder, tableSteps_eq hp p.placingOrder_perm]
  · rw [tablePlan?, weights?_eq_none hp, if_neg hp, Option.map_none]

theorem plan?_eq_tablePlan? (p : Pattern) :
    p.plan? = if p.graph.nodeCount = 0 then some [] else p.tablePlan? := by
  rw [tablePlan?_eq]
  rfl

end Pattern

end GraphGrammar
