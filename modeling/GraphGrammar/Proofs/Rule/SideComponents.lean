import GraphGrammar.Proofs.Graph.ComponentNumbers
import GraphGrammar.Proofs.Rule.SideTable
import GraphGrammar.Rule.SideComponents

/-!
# The components that are found by walking

A walk that starts at the smallest node that was not seen starts at the leader of a component, and
what it sees is this component. So the walks list the components in the order of their leaders, as
numbering does. This holds for the walk that keeps what is unseen in a list, and for the walk
through the tables of a side, which marks what it sees.

## Main definitions

* `GraphGrammar.GraphView.componentOf` — the component of a leader.
* `GraphGrammar.SideWalk.Explores` — how far a walk through a side has come.
* `GraphGrammar.SideTable.marksBelow` — the marks of components whose leaders were met.

## Main results

* `GraphGrammar.GraphView.sweptComponents_eq` — the components that are found by walking.
* `GraphGrammar.SideTable.components_build` — the components that are found through the tables.
* `GraphGrammar.connectedComponents_follow_links` — all ways of finding components.
-/

namespace GraphGrammar

namespace GraphView

variable {g : GraphView} {u v w : Nat}

/-! ### The component of a leader -/

/-- The nodes with a leader, in ascending order. -/
def componentOf (g : GraphView) (r : Nat) : List Nat :=
  (List.range g.nodeCount).filter fun v => g.leader v == r

theorem components_eq (g : GraphView) :
    g.components = ((List.range g.nodeCount).filter g.isLeader).map g.componentOf := rfl

theorem mem_componentOf {r : Nat} : v ∈ g.componentOf r ↔ v < g.nodeCount ∧ g.leader v = r := by
  rw [componentOf, List.mem_filter, List.mem_range, beq_iff_eq]

/-- A list of the nodes that are linked with a leader, each once, is its component when sorted. -/
theorem mergeSort_eq_componentOf {l : List Nat} (hv : v < g.nodeCount) (hleader : g.leader v = v)
    (hnodup : l.Nodup) (hmem : ∀ w, w ∈ l ↔ g.Linked v w) : l.mergeSort = g.componentOf v := by
  have hperm : l.Perm (g.componentOf v) := by
    have hnodup' : (g.componentOf v).Nodup := List.nodup_range.filter _
    refine (List.perm_ext_iff_of_nodup hnodup hnodup').mpr fun w => ?_
    rw [hmem, mem_componentOf, ← leader_eq_iff, hleader]
    constructor
    · exact fun h => ⟨(leader_eq_iff.mp (hleader.trans h)).lt hv, h.symm⟩
    · exact fun h => h.2.symm
  have hsorted : l.mergeSort.Pairwise (· ≤ ·) := (List.pairwise_mergeSort
    (fun a b c hab hbc => by simp_all; omega) (fun a b => by simp; omega) l).imp of_decide_eq_true
  exact ((List.mergeSort_perm l _).trans hperm).eq_of_pairwise
    (fun a b _ _ hab hba => Nat.le_antisymm hab hba) hsorted
    (List.pairwise_le_range.filter _)

/-! ### Keeping what is unseen -/

/-- What was not visited is listed in the order in which it was unseen. -/
theorem sweep_sublist (g : GraphView) (unseen queue : List Nat) :
    (g.sweep unseen queue).2.Sublist unseen := by
  fun_induction sweep g unseen queue with
  | case1 unseen => exact List.Sublist.refl _
  | case2 unseen v queue found ih => exact ih.trans List.filter_sublist

/-- A walk from one node visits what is linked with it, if no edge leads out of what is unseen. -/
theorem mem_sweep_iff {unseen : List Nat}
    (hclosed : ∀ u ∈ v :: unseen, ∀ w, g.Linked u w → w ∈ v :: unseen) :
    w ∈ (g.sweep unseen [v]).1 ↔ g.Linked v w := by
  constructor
  · intro hw
    obtain ⟨u, hu, hlinked⟩ := linked_of_mem_sweep hw
    exact List.mem_singleton.mp hu ▸ hlinked
  · intro hlinked
    induction hlinked with
    | refl =>
      rw [sweep]
      exact List.mem_cons_self ..
    | @tail u w hu hedge ih =>
      have hw : w ∈ v :: unseen :=
        hclosed v (List.mem_cons_self ..) w (Linked.trans hu (Linked.of_hasEdge hedge))
      rcases List.mem_append.mp ((g.sweep_perm unseen [v]).mem_iff.mpr hw) with hw | hw
      · exact hw
      · rw [hasEdge_sweep ih hw] at hedge
        exact absurd hedge Bool.false_ne_true

/-- **Walking** through unseen nodes lists the components of the leaders among them. -/
theorem sweepAll_eq {unseen : List Nat} (hascending : unseen.Pairwise (· < ·))
    (hclosed : ∀ u ∈ unseen, ∀ w, g.Linked u w → w ∈ unseen)
    (hlt : ∀ u ∈ unseen, u < g.nodeCount) :
    g.sweepAll unseen = (unseen.filter g.isLeader).map g.componentOf := by
  fun_induction sweepAll g unseen with
  | case1 => rfl
  | case2 v unseen found ih =>
    obtain ⟨hv, htail⟩ := List.pairwise_cons.mp hascending
    have hnodup : (found.1 ++ found.2).Nodup := (g.sweep_perm unseen [v]).nodup_iff.mpr
      (hascending.imp Nat.ne_of_lt)
    have hvisited : ∀ w, w ∈ found.1 ↔ g.Linked v w := fun w => mem_sweep_iff hclosed
    have hrest : ∀ w, w ∈ found.2 ↔ w ∈ v :: unseen ∧ ¬g.Linked v w := by
      intro w
      rw [← hvisited, ← List.singleton_append, ← (g.sweep_perm unseen [v]).mem_iff,
        List.mem_append]
      have hapart : w ∈ found.1 → w ∉ found.2 :=
        fun hw hw' => List.disjoint_of_nodup_append hnodup hw hw'
      tauto
    have hleader : g.leader v = v := by
      have hmem := hclosed v (List.mem_cons_self ..) _ (g.linked_leader v)
      exact (List.mem_cons.mp hmem).resolve_right fun hmem =>
        Nat.not_lt.mpr (g.leader_le v) (hv _ hmem)
    have hfilter : found.2.filter g.isLeader = unseen.filter g.isLeader := by
      refine ((htail.sublist (g.sweep_sublist unseen [v])).filter _).eq_of_mem_iff
        (htail.filter _) fun w => ?_
      rw [List.mem_filter, List.mem_filter, hrest, List.mem_cons, isLeader_iff, ← leader_eq_iff,
        hleader]
      constructor
      · rintro ⟨⟨rfl | hw, hne⟩, hwl⟩
        · exact absurd hwl.symm hne
        · exact ⟨hw, hwl⟩
      · rintro ⟨hw, hwl⟩
        exact ⟨⟨.inr hw, fun heq => Nat.ne_of_lt (hv w hw) (heq.trans hwl)⟩, hwl⟩
    rw [ih (htail.sublist (g.sweep_sublist unseen [v])) (fun u hu w hlinked => ?_)
      (fun u hu => hlt u ((hrest u).mp hu).1), hfilter, List.filter_cons_of_pos
      (isLeader_iff.mpr hleader), List.map_cons]
    · exact congrArg (· :: _) (mergeSort_eq_componentOf (hlt v (List.mem_cons_self ..)) hleader
        (List.nodup_append.mp hnodup).1 hvisited)
    · obtain ⟨hu, hnot⟩ := (hrest u).mp hu
      exact (hrest w).mpr ⟨hclosed u hu w hlinked, fun h => hnot (h.trans hlinked.symm)⟩

/-- **The components that are found by walking** are those that are found by uniting endpoints, in
the same order. -/
theorem sweptComponents_eq (g : GraphView) : g.sweptComponents = g.components :=
  sweepAll_eq List.pairwise_lt_range
    (fun _ hu _ hlinked => List.mem_range.mpr (hlinked.lt (List.mem_range.mp hu)))
    fun _ => List.mem_range.mp

end GraphView

/-! ### Marking what is seen -/

namespace SideWalk

/-- What is new among the nodes that a walk meets is added to the component and to the queue. -/
theorem exists_foldl_meet (marks : List Bool) (component queue l : List Nat) :
    ∃ (marks' : List Bool) (new : List Nat),
      l.foldl meet ⟨marks, component, queue⟩ = ⟨marks', component ++ new, queue ++ new⟩ ∧
      new.Nodup ∧ (∀ w, w ∈ new ↔ w ∈ l ∧ marks[w]? = some false) ∧
      ∀ w, marks'[w]? = if w ∈ new then some true else marks[w]? := by
  induction l generalizing marks component queue with
  | nil => exact ⟨marks, [], by simp, List.nodup_nil, by simp, by simp⟩
  | cons v l ih =>
    rw [List.foldl_cons, meet]
    split
    · next hv =>
      dsimp only at hv ⊢
      have hlt : v < marks.length := (List.getElem?_eq_some_iff.mp hv).1
      have hset : ∀ w, (marks.set v true)[w]? = if w = v then some true else marks[w]? := by
        intro w
        by_cases hw : w = v
        · rw [hw, List.getElem?_set_self hlt, if_pos rfl]
        · rw [List.getElem?_set_ne (Ne.symm hw), if_neg hw]
      obtain ⟨marks', new, hfold, hnodup, hmem, hmarks⟩ :=
        ih (marks.set v true) (component ++ [v]) (queue ++ [v])
      refine ⟨marks', v :: new, by simp [hfold], ?_, fun w => ?_, fun w => ?_⟩
      · refine List.nodup_cons.mpr ⟨fun h => ?_, hnodup⟩
        simpa [hset] using ((hmem v).mp h).2
      · rw [List.mem_cons, List.mem_cons, hmem, hset]
        by_cases hw : w = v
        · simp [hw, hv]
        · simp [hw]
      · rw [hmarks, hset]
        by_cases hw : w = v <;> simp [hw]
    · next hv =>
      dsimp only at hv
      obtain ⟨marks', new, hfold, hnodup, hmem, hmarks⟩ := ih marks component queue
      refine ⟨marks', new, hfold, hnodup, fun w => ?_, hmarks⟩
      rw [hmem, List.mem_cons]
      by_cases hw : w = v
      · simp [hw, hv]
      · simp [hw]

variable {g : GraphView} {first : Nat} {seen : List Bool} {s : SideWalk}

/-- How far a walk from an unseen node has come, where `seen` was seen before. -/
structure Explores (g : GraphView) (first : Nat) (seen : List Bool) (s : SideWalk) : Prop where
  /-- The walk has seen its first node. -/
  first_mem : first ∈ s.component
  /-- It lists no node twice. -/
  nodup : s.component.Nodup
  /-- What it has seen is linked with the first node. -/
  linked : ∀ u ∈ s.component, g.Linked first u
  /-- It was not seen before. -/
  unseen : ∀ u ∈ s.component, seen[u]? = some false
  /-- It is marked. -/
  seen_eq : ∀ w, s.seen[w]? = if w ∈ s.component then some true else seen[w]?
  /-- What is next to it is seen too, unless the queue remembers it. -/
  closed : ∀ u ∈ s.component, u ∉ s.queue → ∀ w, g.hasEdge u w = true → s.seen[w]? = some true

theorem explores_start (h : seen[first]? = some false) :
    Explores g first seen (start seen first) where
  first_mem := List.mem_singleton_self _
  nodup := List.nodup_singleton _
  linked u hu := List.mem_singleton.mp hu ▸ GraphView.Linked.refl g first
  unseen u hu := List.mem_singleton.mp hu ▸ h
  seen_eq w := by
    have hlt : first < seen.length := (List.getElem?_eq_some_iff.mp h).1
    by_cases hw : w = first
    · simp [start, hw, hlt]
    · simp [start, hw, Ne.symm hw]
  closed u hu hnot := absurd hu hnot

/-- What is not marked was not seen, by this walk or before. -/
theorem Explores.unseen_of_not_marked (h : Explores g first seen s) {w : Nat}
    (hw : s.seen[w]? = some false) : w ∉ s.component ∧ seen[w]? = some false := by
  rw [h.seen_eq] at hw
  split at hw
  · simp at hw
  · next hnot => exact ⟨hnot, hw⟩

/-- Every node is marked or not. -/
theorem Explores.marked_of_lt (h : Explores g first seen s) {w : Nat} (hw : w < seen.length)
    (hmark : s.seen[w]? ≠ some false) : s.seen[w]? = some true := by
  rw [h.seen_eq] at hmark ⊢
  split at hmark
  · next hmem => rw [if_pos hmem]
  · next hmem =>
    rw [if_neg hmem]
    rw [List.getElem?_eq_getElem hw] at hmark ⊢
    cases hbit : seen[w] with
    | false => exact absurd (congrArg some hbit) hmark
    | true => rfl

/-- **One step of a walk** takes a node from the queue and meets its neighbours. -/
theorem Explores.step {v : Nat} {queue component : List Nat} {marks : List Bool}
    (h : Explores g first seen ⟨marks, component, v :: queue⟩)
    (hlength : seen.length = g.nodeCount) (hv : v ∈ component) : Explores g first seen
      (((g.incident v).map (·.node)).foldl meet ⟨marks, component, queue⟩) := by
  obtain ⟨marks', new, hfold, hnodup, hmem, hmarks⟩ :=
    exists_foldl_meet marks component queue ((g.incident v).map (·.node))
  have hnext : ∀ w, w ∈ (g.incident v).map (·.node) ↔ g.hasEdge v w = true := fun w => by
    simp [GraphView.hasEdge]
  have hnew : ∀ w ∈ new, g.hasEdge v w = true ∧ w ∉ component ∧ seen[w]? = some false :=
    fun w hw => ⟨(hnext w).mp ((hmem w).mp hw).1, h.unseen_of_not_marked ((hmem w).mp hw).2⟩
  rw [hfold]
  refine ⟨List.mem_append_left _ h.first_mem, ?_, fun u hu => ?_, fun u hu => ?_, fun w => ?_,
    fun u hu hnot w hedge => ?_⟩
  · exact List.nodup_append'.mpr ⟨h.nodup, hnodup, fun w hw hw' => (hnew w hw').2.1 hw⟩
  · rcases List.mem_append.mp hu with hu | hu
    · exact h.linked u hu
    · exact (h.linked v hv).trans (.of_hasEdge (hnew u hu).1)
  · rcases List.mem_append.mp hu with hu | hu
    · exact h.unseen u hu
    · exact (hnew u hu).2.2
  · have hmark := h.seen_eq w
    dsimp only at hmark ⊢
    rw [hmarks, hmark]
    by_cases hw : w ∈ component <;> by_cases hw' : w ∈ new <;> simp [hw, hw']
  · dsimp only at hnot ⊢
    rw [List.mem_append, not_or] at hnot
    have hu := (List.mem_append.mp hu).resolve_right hnot.2
    rw [hmarks]
    split
    · rfl
    · next hold =>
      by_cases huv : u = v
      · subst huv
        exact h.marked_of_lt (hlength ▸ (GraphView.lt_of_hasEdge hedge).2)
          fun hw => hold ((hmem w).mpr ⟨(hnext w).mpr hedge, hw⟩)
      · exact h.closed u hu (fun hqueue => (List.mem_cons.mp hqueue).elim huv hnot.1) w hedge

/-- **A walk that has ended** has seen the nodes that are linked with its first one, if what was
seen before is not linked with anything else. -/
theorem Explores.mem_component_iff (h : Explores g first seen s) (hqueue : s.queue = [])
    (hseen : ∀ u w, g.Linked u w → seen[u]? = some true → seen[w]? = some true) {w : Nat} :
    w ∈ s.component ↔ g.Linked first w := by
  refine ⟨h.linked w, fun hlinked => ?_⟩
  induction hlinked with
  | refl => exact h.first_mem
  | @tail u w _ hedge ih =>
    have hmarked := h.closed u ih (hqueue ▸ List.not_mem_nil) w hedge
    rw [h.seen_eq] at hmarked
    split at hmarked
    · next hw => exact hw
    · have hback := hseen w u (GraphView.Linked.of_hasEdge hedge).symm hmarked
      rw [h.unseen u ih] at hback
      simp at hback

end SideWalk

namespace SideTable

variable {r : Rule} {s : Side} {first : Nat} {seen : List Bool}

/-- **A walk** through the tables of a side ends with an empty queue. -/
theorem explores_walk {state : SideWalk}
    (h : SideWalk.Explores (r.sideGraph s).view first seen state)
    (hlength : seen.length = (r.sideGraph s).view.nodeCount)
    (hqueue : ∀ u ∈ state.queue, u ∈ state.component) :
    SideWalk.Explores (r.sideGraph s).view first seen ((build r s).walk r state) ∧
      ((build r s).walk r state).queue = [] := by
  fun_induction walk (build r s) r state with
  | case1 marks component => exact ⟨h, rfl⟩
  | case2 marks component v queue ih =>
    rw [incident_build] at ih ⊢
    refine ih (h.step hlength (hqueue v (List.mem_cons_self ..))) fun u hu => ?_
    obtain ⟨marks', new, hfold, -⟩ := SideWalk.exists_foldl_meet marks component queue
      (((r.sideGraph s).view.incident v).map (·.node))
    rw [hfold] at hu ⊢
    rcases List.mem_append.mp hu with hu | hu
    · exact List.mem_append_left _ (hqueue u (List.mem_cons_of_mem _ hu))
    · exact List.mem_append_right _ hu

/-- The marks of the nodes whose leaders are below `k`. -/
def marksBelow (g : GraphView) (k : Nat) : List Bool :=
  (List.range g.nodeCount).map fun w => decide (g.leader w < k)

theorem getElem?_marksBelow (g : GraphView) (k w : Nat) : (marksBelow g k)[w]? =
    if w < g.nodeCount then some (decide (g.leader w < k)) else none := by
  rw [marksBelow, List.getElem?_map]
  split
  · next hw => rw [List.getElem?_range hw, Option.map_some]
  · next hw => rw [List.getElem?_eq_none (by simpa using hw), Option.map_none]

/-- What is marked is not linked with anything else. -/
theorem marksBelow_of_linked {g : GraphView} {k u w : Nat} (hlinked : g.Linked u w)
    (hu : (marksBelow g k)[u]? = some true) : (marksBelow g k)[w]? = some true := by
  rw [getElem?_marksBelow] at hu ⊢
  split at hu
  · next hlt => rwa [if_pos (hlinked.lt hlt), ← GraphView.leader_eq_iff.mpr hlinked]
  · simp at hu

variable {k : Nat} {found : List (List Nat)}

/-- **From a leader** a walk sees its component. -/
theorem collectFrom_of_leader (hk : k < (r.sideGraph s).view.nodeCount)
    (hleader : (r.sideGraph s).view.leader k = k) :
    (build r s).collectFrom r (marksBelow (r.sideGraph s).view k, found) k =
      (marksBelow (r.sideGraph s).view (k + 1), found ++ [(r.sideGraph s).view.componentOf k]) := by
  generalize hview : (r.sideGraph s).view = g at hk hleader ⊢
  have hunseen : (marksBelow g k)[k]? = some false := by
    rw [getElem?_marksBelow, if_pos hk, hleader, decide_eq_false (Nat.lt_irrefl k)]
  have hstart : SideWalk.Explores (r.sideGraph s).view k (marksBelow g k)
      (SideWalk.start (marksBelow g k) k) := SideWalk.explores_start hunseen
  obtain ⟨hexplores, hqueue⟩ := explores_walk hstart
    (by rw [hview, marksBelow, List.length_map, List.length_range]) fun u hu => hu
  rw [hview] at hexplores
  have hmem : ∀ w, _ ↔ g.Linked k w := fun w =>
    hexplores.mem_component_iff hqueue fun _ _ => marksBelow_of_linked
  rw [collectFrom, if_pos hunseen]
  refine Prod.ext (List.ext_getElem? fun w => ?_) (congrArg (found ++ [·])
    (GraphView.mergeSort_eq_componentOf hk hleader hexplores.nodup hmem))
  rw [hexplores.seen_eq, getElem?_marksBelow, getElem?_marksBelow]
  simp only [hmem, ← GraphView.leader_eq_iff, hleader, eq_comm (a := k),
    Nat.lt_succ_iff_lt_or_eq]
  by_cases hw : g.leader w = k
  · have hwlt : w < g.nodeCount := (GraphView.leader_eq_iff.mp (hleader.trans hw.symm)).lt hk
    simp [hw, hwlt]
  · simp [hw]

/-- A node that is no leader was seen from its leader. -/
theorem collectFrom_of_not_leader (hk : k < (r.sideGraph s).view.nodeCount)
    (hleader : (r.sideGraph s).view.leader k ≠ k) :
    (build r s).collectFrom r (marksBelow (r.sideGraph s).view k, found) k =
      (marksBelow (r.sideGraph s).view (k + 1), found) := by
  generalize (r.sideGraph s).view = g at hk hleader ⊢
  have hlt : g.leader k < k := Nat.lt_of_le_of_ne (g.leader_le k) hleader
  have hseen : (marksBelow g k)[k]? = some true := by
    rw [getElem?_marksBelow, if_pos hk, decide_eq_true hlt]
  rw [collectFrom, if_neg (by simp [hseen])]
  refine congrArg (·, found) (List.map_congr_left fun w _ => decide_eq_decide.mpr ?_)
  have hne : g.leader w ≠ k := fun h => hleader (h ▸ g.leader_leader w)
  omega

/-- **Walks from the nodes below `k`** see the components of the leaders among them. -/
theorem foldl_collectFrom (r : Rule) (s : Side) (hk : k ≤ (r.sideGraph s).view.nodeCount) :
    (List.range k).foldl ((build r s).collectFrom r)
        (List.replicate (r.sideGraph s).view.nodeCount false, []) =
      (marksBelow (r.sideGraph s).view k,
        ((List.range k).filter (r.sideGraph s).view.isLeader).map
          (r.sideGraph s).view.componentOf) := by
  induction k with
  | zero =>
    have hnone : List.replicate (r.sideGraph s).view.nodeCount false =
        marksBelow (r.sideGraph s).view 0 :=
      List.ext_getElem (by simp [marksBelow]) fun w _ _ => by simp [marksBelow]
    exact Prod.ext hnone rfl
  | succ k ih =>
    rw [List.range_succ, List.foldl_append, ih (Nat.le_of_succ_le hk), List.foldl_cons,
      List.foldl_nil, List.filter_append, List.map_append]
    by_cases hleader : (r.sideGraph s).view.leader k = k
    · rw [collectFrom_of_leader hk hleader,
        List.filter_cons_of_pos (GraphView.isLeader_iff.mpr hleader), List.filter_nil,
        List.map_singleton]
    · rw [collectFrom_of_not_leader hk hleader,
        List.filter_cons_of_neg (mt GraphView.isLeader_iff.mp hleader), List.filter_nil,
        List.map_nil, List.append_nil]

/-- **The components that are found through the tables** of a side. -/
theorem components_build (r : Rule) (s : Side) :
    (build r s).components r = (r.sideGraph s).view.components := by
  rw [components, nodeCount_build, foldl_collectFrom r s (Nat.le_refl _), GraphView.components_eq]

end SideTable

/-! ### All ways of finding components -/

/-- **Connected components.** In every graph that is read, be it a graph, a composition of several
ones or a side of a rule, uniting endpoints in a table ends, and gives two nodes the same number
exactly when edges lead from the one to the other. Components are numbered in the order of their
smallest nodes, from zero up to the number of components. They are listed in this order, each with
its nodes in ascending order. For every rule, walking through its left side, with marks or without,
lists the same components as numbering. -/
theorem connectedComponents_follow_links :
    (∀ g : GraphView,
      g.numberComponents? = some g.componentNumbers ∧
      g.NumbersComponents g.componentNumbers.1 g.componentNumbers.2 ∧
      g.components = groupByNumber g.componentNumbers.1 g.componentNumbers.2 ∧
      g.components = (List.range g.componentNumbers.2).map fun k =>
        (List.range g.nodeCount).filter fun v => g.componentNumbers.1[v]? == some k) ∧
    ∀ r : Rule,
      (SideTable.build r .left).components r =
        groupByNumber r.leftPattern.graph.componentNumbers.1
          r.leftPattern.graph.componentNumbers.2 ∧
      r.leftPattern.graph.sweptComponents =
        groupByNumber r.leftPattern.graph.componentNumbers.1
          r.leftPattern.graph.componentNumbers.2 := by
  refine ⟨fun g => ⟨g.numberComponents?_eq, g.numbersComponents_componentNumbers,
    g.components_eq_groupByNumber, ?_⟩, fun r => ⟨?_, ?_⟩⟩
  · rw [g.components_eq_groupByNumber, groupByNumber_eq,
      g.numbersComponents_componentNumbers.length_eq]
  · rw [SideTable.components_build, ← GraphView.components_eq_groupByNumber]
    rfl
  · rw [GraphView.sweptComponents_eq, GraphView.components_eq_groupByNumber]

end GraphGrammar
