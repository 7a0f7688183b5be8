import GraphGrammar.Proofs.Graph.Isomorphism
import GraphGrammar.Proofs.Matching.TablePlan

/-!
# Parents and links in a plan

A plan links every node to its neighbours that were placed before. As the order of placing goes
through the components one after the other, and each of them grows along edges, a node has such
neighbours unless it is the first of its component. Of the two endpoints of an edge one is placed
before the other, and the later one has the link. So the links of the plan are the edges of the
graph, once each, without the self-loops.

## Main definitions

* `GraphGrammar.PlannedNode.linkEdges` — the edges to which a step links.
* `GraphGrammar.Pattern.LinksBack` — a plan links all nodes to earlier ones.

## Main results

* `GraphGrammar.Pattern.linksBack_tableSteps` — the plan for an order that is made of components.
* `GraphGrammar.Pattern.tablePlan_links_back` — the order of placing and the plan of a pattern.
-/

namespace GraphGrammar

/-! ### Edges without direction -/

theorem labelsAmong_flatMap {α : Type} (l : List α) (edges : α → List Edge) (a b : Nat) :
    labelsAmong (l.flatMap edges) a b = l.flatMap fun x => labelsAmong (edges x) a b := by
  rw [labelsAmong, List.filter_flatMap, List.map_flatMap]
  rfl

/-- Edges with the same endpoints. -/
theorem labelsAmong_map_mk (labels : List String) (u v a b : Nat) :
    labelsAmong (labels.map fun label => ⟨u, v, label⟩) a b =
      if s(u, v) = s(a, b) then labels else [] := by
  have hconnects : ∀ label, (⟨u, v, label⟩ : Edge).connects a b = decide (s(u, v) = s(a, b)) :=
    fun label => Bool.eq_iff_iff.mpr (Edge.connects_iff.trans decide_eq_true_iff.symm)
  rw [labelsAmong, List.filter_map, List.map_map]
  simp only [Function.comp_def, hconnects]
  split
  · next h => simp [h]
  · next h => simp [h]

/-- Edges that are no self-loops. -/
theorem labelsAmong_filter_isSelfLoop (edges : List Edge) (a b : Nat) :
    labelsAmong (edges.filter fun e => !e.isSelfLoop) a b =
      if a = b then [] else labelsAmong edges a b := by
  rw [labelsAmong, List.filter_filter]
  split
  · next hab =>
    subst hab
    rw [List.map_eq_nil_iff, List.filter_eq_nil_iff]
    intro e _ h
    obtain ⟨hconnects, hloop⟩ := Bool.and_eq_true_iff.mp h
    have hends := Edge.connects_iff.mp hconnects
    rw [Sym2.eq_iff, or_self] at hends
    simp [Edge.isSelfLoop, hends.1, hends.2] at hloop
  · next hab =>
    rw [labelsAmong]
    refine congrArg _ (List.filter_congr fun e _ =>
      Bool.and_eq_left_iff_imp.mpr fun hconnects => ?_)
    have hends := Edge.connects_iff.mp hconnects
    rw [Sym2.eq_iff] at hends
    rw [Edge.isSelfLoop, Bool.not_eq_true', beq_eq_false_iff_ne]
    rcases hends with ⟨hs, ht⟩ | ⟨hs, ht⟩
    · exact hs ▸ ht ▸ hab
    · exact hs ▸ ht ▸ Ne.symm hab

/-! ### Blocks -/

/-- What comes before a node of a block are the blocks before and the block so far. -/
theorem take_idxOf_flatten {earlier later : List (List Nat)} {before after : List Nat} {v : Nat}
    (h : ((earlier ++ (before ++ v :: after) :: later).flatten).Nodup) :
    (earlier ++ (before ++ v :: after) :: later).flatten.take
      ((earlier ++ (before ++ v :: after) :: later).flatten.idxOf v) =
        earlier.flatten ++ before := by
  have hflatten : (earlier ++ (before ++ v :: after) :: later).flatten =
      (earlier.flatten ++ before) ++ v :: (after ++ later.flatten) := by simp
  rw [hflatten] at h ⊢
  exact take_idxOf_append_cons (fun hv =>
    List.disjoint_of_nodup_append h hv (List.mem_cons_self ..)) _

/-- **Only the first node of a block** has no neighbour that comes earlier. -/
theorem GraphView.Separates.forall_hasEdge_eq_false_iff {g : GraphView} {blocks : List (List Nat)}
    (hseparates : g.Separates blocks (List.range g.nodeCount))
    (hgrows : ∀ block ∈ blocks, g.Grows block) {v : Nat} (hv : v ∈ blocks.flatten) :
    (∀ u ∈ blocks.flatten.take (blocks.flatten.idxOf v), g.hasEdge v u = false) ↔
      ∃ block ∈ blocks, block.head? = some v := by
  have hnodup : blocks.flatten.Nodup := hseparates.perm.nodup_iff.mpr List.nodup_range
  constructor
  · intro hnone
    obtain ⟨block, hblock, hvblock⟩ := List.mem_flatten.mp hv
    obtain ⟨earlier, later, rfl⟩ := List.append_of_mem hblock
    obtain ⟨before, after, rfl⟩ := List.append_of_mem hvblock
    refine ⟨_, hblock, ?_⟩
    cases hbefore : before with
    | nil => rfl
    | cons w rest =>
      obtain ⟨u, hu, hedge⟩ := hgrows _ hblock before v after rfl (hbefore ▸ List.cons_ne_nil _ _)
      rw [take_idxOf_flatten hnodup] at hnone
      rw [hnone u (List.mem_append_right _ hu)] at hedge
      cases hedge
  · rintro ⟨block, hblock, hhead⟩
    obtain ⟨after, rfl⟩ := List.head?_eq_some_iff.mp hhead
    obtain ⟨earlier, later, rfl⟩ := List.append_of_mem hblock
    rw [← List.nil_append (v :: after)] at hnodup ⊢
    rw [take_idxOf_flatten hnodup, List.append_nil]
    intro u hu
    obtain ⟨block', hblock', hu⟩ := List.mem_flatten.mp hu
    have hapart := (List.pairwise_append.mp hseparates.hasEdge).2.2 block' hblock' _
      (List.mem_cons_self ..) u hu v (List.mem_cons_self ..)
    rwa [g.hasEdge_comm]

/-! ### Links as edges -/

/-- The edges from the node of a step to those to which it is linked. -/
def PlannedNode.linkEdges (s : PlannedNode) : List Edge :=
  s.links.flatMap fun link => link.2.map fun label => ⟨link.1, s.node, label⟩

namespace Pattern

variable {p : Pattern} {order : List Nat} {u v a b : Nat}

/-- A plan goes through the nodes of `blocks`, one block after the other, and links every node to
those before it. -/
structure LinksBack (p : Pattern) (blocks : List (List Nat)) (plan : List PlannedNode) : Prop where
  /-- Each node of the blocks has its step. -/
  nodes_eq : plan.map (·.node) = blocks.flatten
  /-- Only the first nodes of the blocks have no parent. -/
  parent_eq_none_iff : ∀ s ∈ plan, s.parent = none ↔
    ∃ block ∈ blocks, block.head? = some s.node
  /-- A parent is the first of the nodes to which its child is linked. -/
  parent_eq_head? : ∀ s ∈ plan, s.parent = (s.links.map Prod.fst).head?
  /-- A node is linked to its neighbours that come earlier. -/
  mem_links_iff : ∀ s ∈ plan, ∀ u, u ∈ s.links.map Prod.fst ↔
    p.graph.hasEdge s.node u = true ∧ blocks.flatten.idxOf u < blocks.flatten.idxOf s.node
  /-- It is linked to each of them once, in their order. -/
  pairwise_links : ∀ s ∈ plan, (s.links.map Prod.fst).Pairwise fun u w =>
    blocks.flatten.idxOf u < blocks.flatten.idxOf w
  /-- A link has the labels of all edges between its two nodes. -/
  labels_eq : ∀ s ∈ plan, ∀ link ∈ s.links, link.2 = p.graph.labelsBetween s.node link.1
  /-- All edges but the self-loops are among the links, once each. -/
  bonds_perm : ((plan.flatMap PlannedNode.linkEdges).map Edge.bond).Perm
    ((p.graph.edgeList.filter fun e => !e.isSelfLoop).map Edge.bond)

/-- The links of a step, and the edges between two nodes among them. -/
theorem labelsAmong_linkEdges (p : Pattern) (placed : List Nat) (v a b : Nat) :
    labelsAmong (p.step placed v).linkEdges a b = placed.flatMap fun u =>
      if s(u, v) = s(a, b) then p.graph.labelsBetween v u else [] := by
  rw [PlannedNode.linkEdges, step, List.flatMap_map, labelsAmong_flatMap]
  simp only [labelsAmong_map_mk]
  refine flatMap_filter_of_eq_nil fun u _ hedge => ?_
  rw [p.graph.labelsBetween_eq_nil_iff.mpr hedge, ite_self]

/-- The edges to which the steps link that place the nodes in a given order. -/
def plannedEdges (p : Pattern) (order : List Nat) : List Edge :=
  order.flatMap fun v => (p.step (order.take (order.idxOf v)) v).linkEdges

theorem labelsAmong_plannedEdges (p : Pattern) (order : List Nat) (a b : Nat) :
    labelsAmong (p.plannedEdges order) a b = order.flatMap fun v =>
      (order.take (order.idxOf v)).flatMap fun u =>
        if s(u, v) = s(a, b) then p.graph.labelsBetween v u else [] := by
  rw [plannedEdges, labelsAmong_flatMap]
  simp only [labelsAmong_linkEdges]

/-- **Of two nodes the later one** has the links between them. -/
theorem labelsAmong_plannedEdges_of_lt (p : Pattern) (hnodup : order.Nodup) (hb : b ∈ order)
    (hab : order.idxOf a < order.idxOf b) :
    labelsAmong (p.plannedEdges order) a b = p.graph.labelsBetween b a := by
  have hbefore : a ∈ order.take (order.idxOf b) := mem_take_idxOf_iff.mpr hab
  rw [labelsAmong_plannedEdges, flatMap_eq_apply hnodup hb fun v _ hvb => ?_,
    flatMap_eq_apply (hnodup.sublist (List.take_sublist _ _)) hbefore fun u _ hua => ?_, if_pos rfl]
  · refine if_neg fun heq => ?_
    rcases Sym2.eq_iff.mp heq with ⟨hu, -⟩ | ⟨rfl, rfl⟩
    · exact hua hu
    · exact hua rfl
  · refine List.flatMap_eq_nil_iff.mpr fun u hu => if_neg fun heq => ?_
    rcases Sym2.eq_iff.mp heq with ⟨-, hv⟩ | ⟨rfl, rfl⟩
    · exact hvb hv
    · exact Nat.lt_asymm hab (mem_take_idxOf_iff.mp hu)

/-- No step has a link to its own node. -/
theorem labelsAmong_plannedEdges_self (p : Pattern) (order : List Nat) (a : Nat) :
    labelsAmong (p.plannedEdges order) a a = [] := by
  rw [labelsAmong_plannedEdges]
  refine List.flatMap_eq_nil_iff.mpr fun v _ => List.flatMap_eq_nil_iff.mpr fun u hu =>
    if_neg fun heq => ?_
  rw [Sym2.eq_iff, or_self] at heq
  obtain ⟨rfl, rfl⟩ := heq
  exact Nat.lt_irrefl _ (mem_take_idxOf_iff.mp hu)

theorem labelsAmong_plannedEdges_perm (p : Pattern) (hnodup : order.Nodup) (ha : a ∈ order)
    (hb : b ∈ order) : (labelsAmong (p.plannedEdges order) a b).Perm
      (if a = b then [] else p.graph.labelsBetween a b) := by
  by_cases hab : a = b
  · rw [if_pos hab, hab, labelsAmong_plannedEdges_self]
  · rw [if_neg hab]
    rcases Nat.lt_or_gt_of_ne (mt (List.idxOf_inj ha).mp hab) with hlt | hlt
    · rw [p.labelsAmong_plannedEdges_of_lt hnodup hb hlt]
      exact p.graph.labelsBetween_perm_swap b a
    · rw [labelsAmong_comm, p.labelsAmong_plannedEdges_of_lt hnodup ha hlt]

theorem plannedEdges_lt {e : Edge} (he : e ∈ p.plannedEdges order) :
    e.source < p.graph.nodeCount ∧ e.target < p.graph.nodeCount := by
  obtain ⟨v, -, he⟩ := List.mem_flatMap.mp he
  obtain ⟨link, hlink, he⟩ := List.mem_flatMap.mp he
  obtain ⟨u, -, rfl⟩ := List.mem_map.mp hlink
  obtain ⟨label, hlabel, rfl⟩ := List.mem_map.mp he
  exact (p.graph.lt_of_mem_labelsBetween hlabel).symm

/-- **The links of the plan** are the edges of the graph without the self-loops. -/
theorem bonds_plannedEdges (p : Pattern) (horder : order.Perm (List.range p.graph.nodeCount)) :
    ((p.plannedEdges order).map Edge.bond).Perm
      ((p.graph.edgeList.filter fun e => !e.isSelfLoop).map Edge.bond) := by
  have hmem : ∀ {v}, v < p.graph.nodeCount → v ∈ order := fun hv =>
    horder.mem_iff.mpr (List.mem_range.mpr hv)
  have hedges : ∀ e ∈ p.graph.edgeList.filter fun e => !e.isSelfLoop,
      e.source < p.graph.nodeCount ∧ e.target < p.graph.nodeCount := fun e he =>
    p.graph.nodeCount_toGraph ▸ p.graph.toGraph.endpoints_lt e (List.mem_of_mem_filter he)
  have hperm := map_bond_perm_of_labelsAmong (fun e he => plannedEdges_lt he) hedges
    (f := fun v => v) (fun hv => hv) (fun _ _ heq => heq) fun {u v} hu hv => by
      refine (p.labelsAmong_plannedEdges_perm (horder.nodup_iff.mpr List.nodup_range) (hmem hu)
        (hmem hv)).trans ?_
      rw [labelsAmong_filter_isSelfLoop]
      split
      · exact .refl _
      · exact (p.graph.labelsAmong_edgeList u v).symm
  simpa only [Bond.map_id] using hperm

/-! ### Parents -/

theorem map_fst_links_step (p : Pattern) (placed : List Nat) (v : Nat) :
    (p.step placed v).links.map Prod.fst = placed.filter fun u => p.graph.hasEdge v u := by
  rw [step, List.map_map]
  exact List.map_id _

theorem mem_links_step_iff (p : Pattern) (placed : List Nat) (v u : Nat) :
    u ∈ (p.step placed v).links.map Prod.fst ↔ p.graph.hasEdge v u = true ∧ u ∈ placed := by
  rw [map_fst_links_step, List.mem_filter, and_comm]

theorem labels_of_mem_links_step {placed : List Nat} {link : Nat × List String}
    (h : link ∈ (p.step placed v).links) : link.2 = p.graph.labelsBetween v link.1 := by
  obtain ⟨u, -, rfl⟩ := List.mem_map.mp h
  rfl

theorem parent_step_eq_head? (p : Pattern) (placed : List Nat) (v : Nat) :
    (p.step placed v).parent = ((p.step placed v).links.map Prod.fst).head? := by
  rw [map_fst_links_step]
  rfl

theorem parent_step_eq_none_iff (p : Pattern) (placed : List Nat) (v : Nat) :
    (p.step placed v).parent = none ↔ ∀ u ∈ placed, p.graph.hasEdge v u = false := by
  rw [step, List.head?_eq_none_iff, List.filter_eq_nil_iff]
  exact forall₂_congr fun _ _ => by rw [Bool.not_eq_true]

/-- **A plan for nodes in blocks**, each of which grows along edges, links all of them to earlier
ones. -/
theorem linksBack_tableSteps (p : Pattern) {blocks : List (List Nat)}
    (hseparates : p.graph.Separates blocks (List.range p.graph.nodeCount))
    (hgrows : ∀ block ∈ blocks, p.graph.Grows block) :
    p.LinksBack blocks (p.tableSteps blocks.flatten) := by
  rw [p.tableSteps_eq_map hseparates.perm]
  constructor
  case nodes_eq =>
    rw [List.map_map]
    exact List.map_id _
  case parent_eq_none_iff =>
    exact List.forall_mem_map.mpr fun v hv =>
      (p.parent_step_eq_none_iff _ v).trans (hseparates.forall_hasEdge_eq_false_iff hgrows hv)
  case parent_eq_head? =>
    exact List.forall_mem_map.mpr fun v _ => p.parent_step_eq_head? _ v
  case mem_links_iff =>
    exact List.forall_mem_map.mpr fun v _ u =>
      (p.mem_links_step_iff _ v u).trans (and_congr_right' mem_take_idxOf_iff)
  case pairwise_links =>
    refine List.forall_mem_map.mpr fun v _ => ?_
    rw [map_fst_links_step]
    exact ((pairwise_idxOf_lt (hseparates.perm.nodup_iff.mpr List.nodup_range)).sublist
      (List.take_sublist _ _)).filter _
  case labels_eq =>
    exact List.forall_mem_map.mpr fun v _ link hlink => labels_of_mem_links_step hlink
  case bonds_perm =>
    rw [List.flatMap_map]
    exact p.bonds_plannedEdges hseparates.perm

/-- **The order of placing and the plan.** By the tables every node is placed once, component by
component, and every node of a component but the first shares an edge with an earlier one. So
exactly the first nodes have no parent in the plan, and every edge between distinct nodes is listed
at the later of its endpoints, once. The weights of the plan are the numbers of references, and it
is the plan that a search follows. -/
theorem tablePlan_links_back (p : Pattern) (weight : Nat → Nat) :
    (∃ blocks, p.graph.tableOrder weight = blocks.flatten ∧
      p.graph.Separates blocks (List.range p.graph.nodeCount) ∧
      (∀ block ∈ blocks, p.graph.Grows block) ∧
      p.LinksBack blocks (p.tableSteps (p.graph.tableOrder weight))) ∧
    p.tablePlan? = (if p.inRange then some (p.tableSteps (p.graph.tableOrder p.weight)) else none) ∧
    p.plan? = if p.graph.nodeCount = 0 then some [] else p.tablePlan? := by
  refine ⟨?_, ?_, ?_⟩
  · obtain ⟨blocks, horder, hseparates, hgrows⟩ := p.graph.exists_blocks_placingOrder weight
    rw [p.graph.tableOrder_eq, horder]
    exact ⟨blocks, rfl, hseparates, hgrows, p.linksBack_tableSteps hseparates hgrows⟩
  · rw [p.tablePlan?_eq, p.graph.tableOrder_eq, ← placingOrder]
    split
    · next hp => rw [tableSteps_eq hp p.placingOrder_perm]
    · rfl
  · exact p.plan?_eq_tablePlan?

end Pattern

end GraphGrammar
