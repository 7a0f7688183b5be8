import Mathlib.Data.Set.Card
import Mathlib.Order.Bounds.Defs
import GraphGrammar.Graph.ComponentTable
import GraphGrammar.Proofs.Arena.Ranks
import GraphGrammar.Proofs.Graph.Components
import GraphGrammar.Proofs.Graph.ParentTable

/-!
# The numbers of components

Every component is led by its smallest node. The number of a component is the number of leaders
below its own, so that components are numbered in the order of their smallest nodes, without gaps.
A table of parents may keep other roots than the smallest nodes, but its sets are the same, and the
first node of a component that is met is its leader. Hence the numbers are the same too.

## Main definitions

* `GraphGrammar.GraphView.leader`, `GraphGrammar.GraphView.isLeader` — the smallest nodes of
  components.
* `GraphGrammar.GraphView.NumbersComponents` — how components are numbered.

## Main results

* `GraphGrammar.GraphView.numbersComponents_componentNumbers` — the numbers of the components.
* `GraphGrammar.GraphView.components_eq_groupByNumber` — the components as lists.
* `GraphGrammar.GraphView.numberComponents?_eq` — the numbers that are found by a table.
-/

namespace GraphGrammar

/-! ### Grouping by number -/

/-- The lists of nodes with each number, in ascending order. -/
theorem groupByNumber_eq (ids : List Nat) (count : Nat) : groupByNumber ids count =
    (List.range count).map fun k =>
      (List.range ids.length).filter fun v => ids[v]? == some k := by
  induction ids using List.reverseRecOn with
  | nil =>
    refine List.ext_getElem (by simp [groupByNumber]) fun k hk hk' => ?_
    simp [groupByNumber]
  | append_singleton ids id ih =>
    have hlast : groupByNumber (ids ++ [id]) count =
        (groupByNumber ids count).modify id (· ++ [ids.length]) := by
      simp [groupByNumber, List.zipIdx_append]
    rw [hlast, ih]
    refine List.ext_getElem (by simp) fun k hk hk' => ?_
    have hbefore : ((List.range ids.length).filter fun v => (ids ++ [id])[v]? == some k) =
        (List.range ids.length).filter fun v => ids[v]? == some k :=
      List.filter_congr fun v hv => by
        rw [List.getElem?_append_left (List.mem_range.mp hv)]
    rw [List.getElem_modify, List.getElem_map, List.getElem_map, List.getElem_range,
      List.length_append, List.length_singleton, List.range_succ, List.filter_append, hbefore]
    by_cases hid : id = k
    · simp [hid]
    · simp [hid]

namespace GraphView

variable {g : GraphView} {u v w : Nat}

/-! ### Leaders -/

/-- The smallest node of the component of a node. -/
def leader (g : GraphView) (v : Nat) : Nat := g.componentForest.root v

/-- Whether a node is the smallest of its component. -/
def isLeader (g : GraphView) (v : Nat) : Bool := g.leader v == v

theorem isLeader_iff : g.isLeader v = true ↔ g.leader v = v := beq_iff_eq

theorem leader_eq_iff : g.leader u = g.leader v ↔ g.Linked u v := root_componentForest_eq_iff

theorem leader_le (g : GraphView) (v : Nat) : g.leader v ≤ v := DisjointSets.root_le _ v

theorem leader_leader (g : GraphView) (v : Nat) : g.leader (g.leader v) = g.leader v :=
  DisjointSets.root_root _ v

theorem isLeader_leader (g : GraphView) (v : Nat) : g.isLeader (g.leader v) = true :=
  isLeader_iff.mpr (g.leader_leader v)

theorem leader_lt (hv : v < g.nodeCount) : g.leader v < g.nodeCount :=
  Nat.lt_of_le_of_lt (g.leader_le v) hv

theorem linked_leader (g : GraphView) (v : Nat) : g.Linked v (g.leader v) :=
  leader_eq_iff.mp (g.leader_leader v).symm

/-- **The leader of a node** is the smallest node that is linked with it. -/
theorem isLeast_leader (g : GraphView) (v : Nat) : IsLeast {w | g.Linked v w} (g.leader v) :=
  ⟨g.linked_leader v, fun w hw => (leader_eq_iff.mpr hw).trans_le (g.leader_le w)⟩

theorem componentRoots_eq (g : GraphView) :
    g.componentRoots g.componentForest = (List.range g.nodeCount).filter g.isLeader := rfl

theorem idxOf_leader (hv : v < g.nodeCount) :
    ((List.range g.nodeCount).filter g.isLeader).idxOf (g.leader v) =
      rank g.isLeader (g.leader v) := by
  obtain ⟨hlt, hget⟩ := List.getElem?_eq_some_iff.mp
    (getElem?_rank (g.isLeader_leader v) (leader_lt hv))
  have hnodup : ((List.range g.nodeCount).filter g.isLeader).Nodup := List.nodup_range.filter _
  calc ((List.range g.nodeCount).filter g.isLeader).idxOf (g.leader v)
      = ((List.range g.nodeCount).filter g.isLeader).idxOf
          ((List.range g.nodeCount).filter g.isLeader)[rank g.isLeader (g.leader v)] := by
        rw [hget]
    _ = rank g.isLeader (g.leader v) := hnodup.idxOf_getElem _ hlt

/-- The number of a component counts the leaders before its own. -/
theorem componentNumbers_eq (g : GraphView) : g.componentNumbers =
    ((List.range g.nodeCount).map fun v => rank g.isLeader (g.leader v),
      rank g.isLeader g.nodeCount) := by
  rw [componentNumbers, componentRoots_eq, length_filter_range]
  exact congrArg (·, _) (List.map_congr_left fun v hv => idxOf_leader (List.mem_range.mp hv))

theorem getElem?_componentNumbers_eq_some_iff {k : Nat} : g.componentNumbers.1[v]? = some k ↔
    v < g.nodeCount ∧ k = rank g.isLeader (g.leader v) := by
  rw [componentNumbers_eq, List.getElem?_map, Option.map_eq_some_iff]
  constructor
  · rintro ⟨w, hw, rfl⟩
    obtain ⟨hlt, rfl⟩ := List.getElem?_eq_some_iff.mp hw
    simpa using hlt
  · rintro ⟨hv, rfl⟩
    exact ⟨v, List.getElem?_range hv, rfl⟩

theorem rank_leader_lt_iff :
    rank g.isLeader (g.leader u) < rank g.isLeader (g.leader v) ↔ g.leader u < g.leader v := by
  refine ⟨fun h => ?_, rank_lt_rank (g.isLeader_leader u)⟩
  exact Nat.lt_of_not_le fun hle => Nat.not_lt.mpr (rank_mono g.isLeader hle) h

/-! ### Numbered components -/

/-- The nodes have the numbers of their components, which are the numbers below `count` in the order
of the smallest nodes. -/
structure NumbersComponents (g : GraphView) (ids : List Nat) (count : Nat) : Prop where
  /-- Every node has a number. -/
  length_eq : ids.length = g.nodeCount
  /-- Two nodes have the same number exactly when edges lead from the one to the other. -/
  eq_iff : ∀ {u v : Nat}, u < g.nodeCount → v < g.nodeCount →
    (ids[u]? = ids[v]? ↔ g.Linked u v)
  /-- A component with a smaller node than all of another comes before it. -/
  lt_iff : ∀ {u v k l a b : Nat}, ids[u]? = some k → ids[v]? = some l →
    IsLeast {w | g.Linked u w} a → IsLeast {w | g.Linked v w} b → (k < l ↔ a < b)
  /-- The numbers below the number of components are given, and only these. -/
  mem_iff : ∀ {k : Nat}, k ∈ ids ↔ k < count
  /-- There are as many numbers as components. -/
  count_eq : count = {c | ∃ v < g.nodeCount, c = {w | g.Linked v w}}.ncard

/-- There are as many components as leaders. -/
theorem ncard_components (g : GraphView) :
    {c | ∃ v < g.nodeCount, c = {w | g.Linked v w}}.ncard = rank g.isLeader g.nodeCount := by
  have himage : {c | ∃ v < g.nodeCount, c = {w | g.Linked v w}} =
      (fun v => {w | g.Linked v w}) ''
        (((List.range g.nodeCount).filter g.isLeader).toFinset : Set Nat) := by
    ext c
    simp only [Set.mem_ofPred_eq, Set.mem_image, List.coe_toFinset, List.mem_filter,
      List.mem_range]
    constructor
    · rintro ⟨v, hv, rfl⟩
      refine ⟨g.leader v, ⟨leader_lt hv, g.isLeader_leader v⟩, Set.ext fun w => ?_⟩
      exact ⟨(g.linked_leader v).trans, (g.linked_leader v).symm.trans⟩
    · rintro ⟨v, ⟨hv, -⟩, rfl⟩
      exact ⟨v, hv, rfl⟩
  have hinj : Set.InjOn (fun v => {w | g.Linked v w})
      (((List.range g.nodeCount).filter g.isLeader).toFinset : Set Nat) := by
    intro u hu v hv huv
    simp only [List.coe_toFinset, Set.mem_ofPred_eq, List.mem_filter, isLeader_iff] at hu hv
    have hlinked : g.Linked u v := (Set.ext_iff.mp huv v).mpr (Linked.refl g v)
    exact hu.2.symm.trans ((leader_eq_iff.mpr hlinked).trans hv.2)
  rw [himage, hinj.ncard_image, Set.ncard_coe_finset,
    List.toFinset_card_of_nodup (List.nodup_range.filter _), length_filter_range]

/-- **The numbers of the components** that are found by uniting endpoints. -/
theorem numbersComponents_componentNumbers (g : GraphView) :
    g.NumbersComponents g.componentNumbers.1 g.componentNumbers.2 where
  length_eq := by simp [componentNumbers]
  eq_iff hu hv := componentNumbers_eq_iff hu hv
  lt_iff hu hv ha hb := by
    obtain ⟨-, rfl⟩ := getElem?_componentNumbers_eq_some_iff.mp hu
    obtain ⟨-, rfl⟩ := getElem?_componentNumbers_eq_some_iff.mp hv
    rw [rank_leader_lt_iff, ha.unique (g.isLeast_leader _), hb.unique (g.isLeast_leader _)]
  mem_iff {k} := by
    rw [List.mem_iff_getElem?]
    simp only [getElem?_componentNumbers_eq_some_iff]
    rw [componentNumbers_eq]
    constructor
    · rintro ⟨v, hv, rfl⟩
      exact rank_lt_rank (g.isLeader_leader v) (leader_lt hv)
    · intro hk
      obtain ⟨v, hv, hleader, rfl⟩ := exists_rank_eq hk
      exact ⟨v, hv, by rw [isLeader_iff.mp hleader]⟩
  count_eq := by rw [ncard_components, componentNumbers_eq]

/-- **The components as lists** are the nodes with each number. -/
theorem components_eq_groupByNumber (g : GraphView) :
    g.components = groupByNumber g.componentNumbers.1 g.componentNumbers.2 := by
  have hlength : g.componentNumbers.1.length = g.nodeCount :=
    g.numbersComponents_componentNumbers.length_eq
  have hcount : g.componentNumbers.2 = rank g.isLeader g.nodeCount :=
    congrArg Prod.snd g.componentNumbers_eq
  rw [groupByNumber_eq, components, componentRoots_eq, hlength, hcount]
  refine List.ext_getElem? fun k => ?_
  rw [List.getElem?_map, List.getElem?_map]
  rcases Nat.lt_or_ge k (rank g.isLeader g.nodeCount) with hk | hk
  · obtain ⟨r, hr, hleader, rfl⟩ := exists_rank_eq hk
    rw [getElem?_rank hleader hr, List.getElem?_range hk, Option.map_some, Option.map_some]
    refine congrArg some (List.filter_congr fun v hv => ?_)
    rw [Bool.eq_iff_iff, beq_iff_eq, beq_iff_eq, getElem?_componentNumbers_eq_some_iff,
      and_iff_right (List.mem_range.mp hv)]
    exact ⟨fun h => congrArg (rank g.isLeader) h.symm,
      fun h => (rank_inj hleader (g.isLeader_leader v) h).symm⟩
  · rw [List.getElem?_eq_none (by rwa [length_filter_range]),
      List.getElem?_eq_none (by rwa [List.length_range])]
    rfl

/-! ### Numbering by a table -/

/-- How far numbering has come when the nodes below `k` were met. -/
structure NumbersBelow (g : GraphView) (root : Nat → Nat) (k : Nat) (s : ComponentNumbering) :
    Prop where
  /-- There is a place for every root. -/
  length_eq : s.ofRoot.length = g.nodeCount
  /-- The nodes have the numbers of their components. -/
  ids_eq : s.ids = (List.range k).map fun v => rank g.isLeader (g.leader v)
  /-- So many components were met. -/
  count_eq : s.count = rank g.isLeader k
  /-- The roots of the nodes that were met have their numbers. -/
  ofRoot_iff : ∀ r m, (s.ofRoot[r]?).join = some m ↔
    ∃ v < k, root v = r ∧ rank g.isLeader (g.leader v) = m

variable {root : Nat → Nat} {s : ComponentNumbering}

/-- **Meeting the next node** gives it the number of its component. If no node of the component was
met before, the node is its leader. -/
theorem NumbersBelow.meet (h : g.NumbersBelow root v s) (hv : v < g.nodeCount)
    (hlt : root v < g.nodeCount)
    (hroot : ∀ u < g.nodeCount, root u = root v ↔ g.leader u = g.leader v) :
    g.NumbersBelow root (v + 1) (s.meet (root v)) := by
  rw [ComponentNumbering.meet]
  split
  · next m hm =>
    obtain ⟨u, hu, huv, rfl⟩ := (h.ofRoot_iff _ _).mp hm
    have hleader := (hroot u (hu.trans hv)).mp huv
    have hnot : g.isLeader v = false := by
      rw [Bool.eq_false_iff, Ne, isLeader_iff, ← hleader]
      exact Nat.ne_of_lt (Nat.lt_of_le_of_lt (g.leader_le u) hu)
    refine ⟨h.length_eq, ?_, ?_, fun r m => (h.ofRoot_iff r m).trans ⟨?_, ?_⟩⟩
    · rw [h.ids_eq, List.range_succ, List.map_append, List.map_singleton, hleader]
    · rw [h.count_eq, rank_succ, hnot, if_neg Bool.false_ne_true, Nat.add_zero]
    · rintro ⟨w, hw, rfl, rfl⟩
      exact ⟨w, Nat.lt_succ_of_lt hw, rfl, rfl⟩
    · rintro ⟨w, hw, rfl, rfl⟩
      rcases Nat.lt_succ_iff_lt_or_eq.mp hw with hw | rfl
      · exact ⟨w, hw, rfl, rfl⟩
      · exact ⟨u, hu, huv, by rw [hleader]⟩
  · next hnone =>
    have hnew : ∀ u < v, root u ≠ root v := fun u hu huv => by
      rw [Option.eq_none_iff_forall_ne_some] at hnone
      exact hnone _ ((h.ofRoot_iff _ _).mpr ⟨u, hu, huv, rfl⟩)
    have hleader : g.leader v = v := by
      refine (Nat.lt_or_eq_of_le (g.leader_le v)).resolve_left fun hlt => hnew _ hlt ?_
      exact (hroot _ (hlt.trans hv)).mpr (g.leader_leader v)
    refine ⟨by rw [List.length_set, h.length_eq], ?_, ?_, fun r m => ?_⟩
    · rw [h.ids_eq, h.count_eq, List.range_succ, List.map_append, List.map_singleton, hleader]
    · rw [h.count_eq, rank_succ, isLeader_iff.mpr hleader, if_pos rfl]
    · by_cases hr : root v = r
      · subst hr
        rw [List.getElem?_set_self (h.length_eq.symm ▸ hlt), Option.join_some, Option.some.injEq,
          h.count_eq]
        constructor
        · rintro rfl
          exact ⟨v, Nat.lt_succ_self v, rfl, by rw [hleader]⟩
        · rintro ⟨w, hw, hwv, rfl⟩
          rcases Nat.lt_succ_iff_lt_or_eq.mp hw with hw | rfl
          · exact absurd hwv (hnew w hw)
          · rw [hleader]
      · rw [List.getElem?_set_ne hr, h.ofRoot_iff]
        refine exists_congr fun w => and_congr_left fun hw => ?_
        rw [Nat.lt_succ_iff_lt_or_eq]
        exact (or_iff_left fun heq : w = v => hr (heq ▸ hw.1)).symm

/-- **All nodes are met** in turn. -/
theorem numbersBelow_foldl (hlt : ∀ v < g.nodeCount, root v < g.nodeCount)
    (hroot : ∀ u < g.nodeCount, ∀ v < g.nodeCount, root u = root v ↔ g.leader u = g.leader v)
    {k : Nat} (hk : k ≤ g.nodeCount) : g.NumbersBelow root k
      (((List.range k).map root).foldl ComponentNumbering.meet
        (ComponentNumbering.start g.nodeCount)) := by
  induction k with
  | zero =>
    refine ⟨by simp [ComponentNumbering.start], rfl, rfl, fun r m => ?_⟩
    have hnone : ((List.replicate g.nodeCount (none : Option Nat))[r]?).join = none := by
      rw [List.getElem?_replicate]
      split <;> rfl
    simp [ComponentNumbering.start, hnone]
  | succ k ih =>
    rw [List.range_succ, List.map_append, List.map_singleton, List.foldl_append, List.foldl_cons,
      List.foldl_nil]
    exact (ih (Nat.le_of_succ_le hk)).meet hk (hlt k hk) fun u hu => hroot u hu k hk

/-- **The numbers that are found by a table** of parents, for which looking up every node ends. -/
theorem numberComponents?_eq (g : GraphView) : g.numberComponents? = some g.componentNumbers := by
  obtain ⟨root, t, t', hunite, hfind, hlt, hroot⟩ := ParentTable.exists_roots_eq
    fun pair (hpair : pair ∈ g.endpointPairs) => lt_of_hasEdge (mem_endpointPairs.mp hpair)
  rw [← componentForest_eq] at hroot
  have hnumbers : g.NumbersBelow root g.nodeCount _ :=
    numbersBelow_foldl hlt hroot (Nat.le_refl _)
  have hrun : g.numberNodes.run (ParentTable.singletons g.nodeCount) =
      some (((List.range g.nodeCount).map root).foldl ComponentNumbering.meet
        (ComponentNumbering.start g.nodeCount), t') := by
    rw [numberNodes, ParentTable.forM_unionAll, ← endpointPairs]
    simp [hunite, hfind]
  rw [numberComponents?, StateT.run'_eq, hrun, componentNumbers_eq]
  simp [hnumbers.ids_eq, hnumbers.count_eq]

end GraphView

end GraphGrammar
