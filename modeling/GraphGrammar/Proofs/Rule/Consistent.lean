import GraphGrammar.Rule.Side

/-!
# Consistent rules

A consistent rule has none of the problems that a rule can have. What this says of its nodes, edges,
directives and constraints is stated one by one.

## Main results

* `GraphGrammar.Rule.exists_roles_of_isConsistent` — the endpoints of edges.
* `GraphGrammar.Rule.hasNode_of_hasEdge` — the endpoints of the edges of a side.
* `GraphGrammar.Rule.exists_newLabel_of_isConsistent` — the right labels of label changes.
* `GraphGrammar.Rule.directive_target_of_isConsistent` — the nodes to which directives paste.
-/

namespace GraphGrammar

namespace Rule

variable {r : Rule}

theorem isConsistent_iff : r.isConsistent = true ↔ r.hasId = true ∧
    (∀ n ∈ r.nodes, nodeProblems n = []) ∧ (∀ e ∈ r.edges, r.edgeProblems e = []) ∧
    (∀ d ∈ r.directives, r.directiveProblems d = []) ∧
    ∀ c ∈ r.constraints, r.constraintProblems c = [] := by
  rw [isConsistent, problems, List.isEmpty_iff]
  simp only [List.append_eq_nil_iff, List.flatMap_eq_nil_iff, and_assoc]
  cases r.hasId <;> simp

/-- The endpoints of an edge are nodes, whose roles the role of the edge may join. -/
theorem exists_roles_of_isConsistent (h : r.isConsistent = true) {e : RuleEdge} (he : e ∈ r.edges) :
    ∃ a b, r.roleOf e.source = some a ∧ r.roleOf e.target = some b ∧
      e.role.mayJoin a b = true := by
  have := (isConsistent_iff.mp h).2.2.1 e he
  rw [edgeProblems] at this
  split at this
  · next a b ha hb =>
    exact ⟨a, b, ha, hb, by simpa using this⟩
  · cases this

/-- Nodes that an edge may join are on every side that the edge is on. -/
theorem hasNode_of_mayJoin {s : Side} {role : EdgeRole} {a b : NodeRole}
    (hs : s.hasEdge role = true) (hjoin : role.mayJoin a b = true) :
    s.hasNode a = true ∧ s.hasNode b = true := by
  revert hs hjoin
  cases s <;> cases role <;> cases a <;> cases b <;> decide

/-- An edge on a side of a consistent rule has its endpoints there. -/
theorem hasNode_of_hasEdge (h : r.isConsistent = true) {s : Side} {e : RuleEdge}
    (he : e ∈ r.edges) (hs : s.hasEdge e.role = true) :
    (∃ role, r.roleOf e.source = some role ∧ s.hasNode role = true) ∧
      ∃ role, r.roleOf e.target = some role ∧ s.hasNode role = true := by
  obtain ⟨a, b, ha, hb, hjoin⟩ := exists_roles_of_isConsistent h he
  obtain ⟨hsource, htarget⟩ := hasNode_of_mayJoin hs hjoin
  exact ⟨⟨a, ha, hsource⟩, b, hb, htarget⟩

/-- Kept edges join nodes that are on both sides. -/
theorem survives_of_kept (h : r.isConsistent = true) {e : RuleEdge} (he : e ∈ r.edges)
    (hrole : e.role = .kept) :
    (∃ role, r.roleOf e.source = some role ∧ role.survives = true) ∧
      ∃ role, r.roleOf e.target = some role ∧ role.survives = true := by
  obtain ⟨a, b, ha, hb, hjoin⟩ := exists_roles_of_isConsistent h he
  rw [hrole, EdgeRole.mayJoin, Bool.and_eq_true] at hjoin
  exact ⟨⟨a, ha, hjoin.1⟩, b, hb, hjoin.2⟩

theorem exists_newLabel_of_isConsistent (h : r.isConsistent = true) {n : RuleNode}
    (hn : n ∈ r.nodes) (hrole : n.role = .labelChange) : ∃ label, n.newLabel = some label := by
  have := (isConsistent_iff.mp h).2.1 n hn
  rw [nodeProblems] at this
  split at this
  · cases this
  · next hnone => exact Option.ne_none_iff_exists'.mp fun hnew => hnone ⟨hrole, hnew⟩

theorem directive_target_of_isConsistent (h : r.isConsistent = true) {d : Rerouting}
    (hd : d ∈ r.directives) :
    ∃ role, r.roleOf d.pasteTarget = some role ∧ role.onRight = true := by
  have := (isConsistent_iff.mp h).2.2.2.1 d hd
  rw [directiveProblems, List.append_eq_nil_iff, List.append_eq_nil_iff] at this
  rw [← Option.any_eq_true]
  simpa using this.1.2

end Rule

end GraphGrammar
