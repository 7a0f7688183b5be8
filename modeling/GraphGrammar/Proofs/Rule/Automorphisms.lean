import GraphGrammar.Proofs.Graph.Bonds
import GraphGrammar.Proofs.Rewrite.Occurrence
import GraphGrammar.Proofs.SortedSet
import GraphGrammar.Proofs.Symmetry.Automorphisms
import GraphGrammar.Rewrite.Run

/-!
# Symmetries of rules

A symmetry of the left side that sends the whole rule to itself is a permutation of the rule nodes
that keeps right-only nodes in place, sends nodes to equal nodes and the edges to the edges, and
under which the edges around deleted nodes are drawn again alike. A run asks of the directives only
that they are sent to directives. That is enough when no directive is repeated.

## Main definitions

* `GraphGrammar.Rule.pastes` — the nodes at which an edge is drawn again.
* `GraphGrammar.Rule.Automorphism` — a permutation that sends the rule to itself.

## Main results

* `GraphGrammar.Rule.automorphism_ruleNodeImage` — the permutations that a run takes for symmetries.
* `GraphGrammar.Rule.imageOf_permuted` — matches after symmetries.
-/

namespace GraphGrammar

namespace Rule

variable {r : Rule} {φ : Nat → Nat}

/-- An edge of a rule without direction. -/
def ruleBond (φ : Nat → Nat) (e : RuleEdge) : Sym2 Nat × EdgeRole × String :=
  (s(φ e.source, φ e.target), e.role, e.label)

/-- The nodes at which an edge is drawn again that loses the image of `source` and keeps that of
`other`, if the other endpoint is an image. -/
def pastes (r : Rule) (source : Nat) (other : Option Nat) (label : String) : List Nat :=
  ((r.directivesOf source).filter fun d => d.admits other label).map (·.pasteTarget)

/-- Whether edges around deleted nodes are drawn again alike after a permutation of the rule
nodes. -/
def PastesAlike (r : Rule) (φ : Nat → Nat) : Prop :=
  ∀ (source : Nat) (other : Option Nat) (label : String),
    (∀ v ∈ other, (r.roleOf v).any (·.survives) = true) →
    (r.pastes (φ source) (other.map φ) label).Perm ((r.pastes source other label).map φ)

/-- A permutation of the rule nodes that sends the rule to itself. -/
structure Automorphism (r : Rule) (φ : Nat → Nat) : Prop where
  /-- Distinct nodes are sent to distinct nodes. -/
  inj : ∀ {u v : Nat}, φ u = φ v → u = v
  /-- Every node is the image of a node. -/
  surj : ∀ w, ∃ v, φ v = w
  /-- Nodes are sent to equal nodes. -/
  node_eq : ∀ v : Nat, r.nodes[φ v]? = r.nodes[v]?
  /-- Right-only nodes stay. -/
  eq_of_rightOnly : ∀ {v : Nat}, r.roleOf v = some .rightOnly → φ v = v
  /-- The edges are sent to the edges. -/
  edges_perm : (r.edges.map (ruleBond φ)).Perm (r.edges.map (ruleBond fun v => v))
  /-- Edges are drawn again alike. -/
  pastesAlike : r.PastesAlike φ

theorem automorphism_id (r : Rule) : r.Automorphism fun v => v where
  inj heq := heq
  surj w := ⟨w, rfl⟩
  node_eq _ := rfl
  eq_of_rightOnly _ := rfl
  edges_perm := List.Perm.refl _
  pastesAlike source other label _ := by
    rw [Option.map_id', List.map_id']

theorem Automorphism.roleOf_eq (h : r.Automorphism φ) (v : Nat) : r.roleOf (φ v) = r.roleOf v := by
  rw [roleOf, h.node_eq, roleOf]

/-! ### Directives -/

theorem admits_mapDirective (hφ : ∀ {u v : Nat}, φ u = φ v → u = v) (d : Rerouting)
    (other : Option Nat) (label : String) :
    (mapDirective φ d).admits (other.map φ) label = d.admits other label := by
  obtain ⟨source, pasteTarget, targetFilter, edgeLabels⟩ := d
  rw [Rerouting.admits, Rerouting.admits, mapDirective]
  cases targetFilter with
  | none => rfl
  | some nodes =>
    cases other with
    | none => rfl
    | some v =>
      simp only [Option.map_some, Option.all_some, Option.any_some, SortedSet.contains_map hφ]

theorem mapDirective_inj (hφ : ∀ {u v : Nat}, φ u = φ v → u = v) {d d' : Rerouting}
    (h : mapDirective φ d = mapDirective φ d') : d = d' := by
  obtain ⟨source, pasteTarget, targetFilter, edgeLabels⟩ := d
  obtain ⟨source', pasteTarget', targetFilter', edgeLabels'⟩ := d'
  simp only [mapDirective, Rerouting.mk.injEq] at h ⊢
  obtain ⟨hsource, htarget, hfilter, hlabels⟩ := h
  refine ⟨hφ hsource, hφ htarget, ?_, hlabels⟩
  cases targetFilter <;> cases targetFilter' <;> simp only [Option.map_none, Option.map_some,
    Option.some.injEq, reduceCtorEq] at hfilter ⊢
  exact SortedSet.map_inj hφ hfilter

/-- It is enough that every directive is sent to one that occurs as often. -/
theorem pastesAlike_of_perm (hφ : ∀ {u v : Nat}, φ u = φ v → u = v)
    (hperm : (r.directives.map (mapDirective φ)).Perm r.directives) : r.PastesAlike φ := by
  intro source other label _
  let admitted : Rerouting → Bool := fun d =>
    d.admits (other.map φ) label && d.source == φ source
  have hadmitted : ∀ d : Rerouting, (admitted ∘ mapDirective φ) d =
      (d.admits other label && d.source == source) := by
    intro d
    have hsource : ((mapDirective φ d).source == φ source) = (d.source == source) := by
      rw [Bool.eq_iff_iff, beq_iff_eq, beq_iff_eq]
      exact ⟨fun heq => hφ heq, fun heq => congrArg φ heq⟩
    simp only [admitted, Function.comp_apply, hsource, admits_mapDirective hφ]
  have hpastes := ((hperm.symm.filter admitted).map (·.pasteTarget))
  rw [List.filter_map, List.filter_congr fun d _ => hadmitted d, List.map_map] at hpastes
  rw [pastes, pastes, directivesOf, directivesOf, List.filter_filter, List.filter_filter,
    List.map_map]
  exact hpastes

/-- Directives of which none is repeated are sent to directives that occur as often. -/
theorem pastesAlike_of_nodup {perm : List Nat}
    (hφ : ∀ {u v : Nat}, r.ruleNodeImage perm u = r.ruleNodeImage perm v → u = v)
    (hsymmetry : r.isSymmetry perm = true) (hnodup : r.directives.Nodup) :
    r.PastesAlike (r.ruleNodeImage perm) := by
  simp only [isSymmetry, Bool.and_eq_true, List.all_eq_true, List.contains_iff_mem] at hsymmetry
  have hsub : r.directives.map (mapDirective (r.ruleNodeImage perm)) ⊆ r.directives := by
    intro d hd
    obtain ⟨d', hd', rfl⟩ := List.mem_map.mp hd
    exact hsymmetry.2 d' hd'
  have hmapped := hnodup.map fun d d' => mapDirective_inj hφ
  exact pastesAlike_of_perm hφ
    ((hmapped.subperm hsub).perm_of_length_le (by rw [List.length_map]))

/-! ### Symmetries that a run takes -/

section

variable {perm : List Nat} (h : r.leftPattern.IsSymmetry perm)

theorem ruleNodeImage_of_notMem {v : Nat} (hv : v ∉ r.sideNodes .left) :
    r.ruleNodeImage perm v = v := by
  have hnone : r.localNumber? .left v = none := by
    rw [localNumber?, List.idxOf?_eq_none_iff]
    exact hv
  rw [ruleNodeImage, hnone]
  rfl

include h

/-- A node of the left side is sent to the node with the image of its number. -/
theorem ruleNodeImage_of_getElem? {v i j : Nat} (hi : (r.sideNodes .left)[i]? = some v)
    (hj : perm[i]? = some j) : (r.sideNodes .left)[j]? = some (r.ruleNodeImage perm v) := by
  have hlt : j < (r.sideNodes .left).length := by
    rw [← nodeCount_leftPattern]
    exact h.mem_lt (List.mem_of_getElem? hj)
  rw [ruleNodeImage, localNumber?_eq_some_iff.mpr hi]
  simp only [Option.bind_eq_bind, Option.bind_some, hj]
  rw [List.getElem?_eq_getElem hlt]
  rfl

theorem exists_getElem?_of_mem {v : Nat} (hv : v ∈ r.sideNodes .left) :
    ∃ i j : Nat, (r.sideNodes .left)[i]? = some v ∧ perm[i]? = some j := by
  obtain ⟨i, hi⟩ := List.mem_iff_getElem?.mp hv
  have hlt : i < r.leftPattern.graph.nodeCount := by
    rw [nodeCount_leftPattern]
    exact (List.getElem?_eq_some_iff.mp hi).1
  exact ⟨i, _, hi, h.getElem?_eq hlt⟩

theorem ruleNodeImage_mem {v : Nat} (hv : v ∈ r.sideNodes .left) :
    r.ruleNodeImage perm v ∈ r.sideNodes .left := by
  obtain ⟨i, j, hi, hj⟩ := exists_getElem?_of_mem h hv
  exact List.mem_of_getElem? (ruleNodeImage_of_getElem? h hi hj)

theorem ruleNodeImage_inj {u v : Nat} (heq : r.ruleNodeImage perm u = r.ruleNodeImage perm v) :
    u = v := by
  by_cases hu : u ∈ r.sideNodes .left <;> by_cases hv : v ∈ r.sideNodes .left
  · obtain ⟨i, j, hi, hj⟩ := exists_getElem?_of_mem h hu
    obtain ⟨i', j', hi', hj'⟩ := exists_getElem?_of_mem h hv
    have hget := ruleNodeImage_of_getElem? h hi hj
    have hget' := ruleNodeImage_of_getElem? h hi' hj'
    rw [heq, ← hget'] at hget
    have hlt : j < (r.sideNodes .left).length := by
      rw [hget'] at hget
      exact (List.getElem?_eq_some_iff.mp hget).1
    obtain rfl := (List.getElem?_inj hlt (nodup_sideNodes r .left)).mp hget
    have hilt := (List.getElem?_eq_some_iff.mp hj).1
    obtain rfl := (List.getElem?_inj hilt h.nodup).mp (hj.trans hj'.symm)
    exact Option.some.inj (hi.symm.trans hi')
  · have := ruleNodeImage_mem h hu
    rw [heq, ruleNodeImage_of_notMem hv] at this
    exact absurd this hv
  · have := ruleNodeImage_mem h hv
    rw [← heq, ruleNodeImage_of_notMem hu] at this
    exact absurd this hu
  · rwa [ruleNodeImage_of_notMem hu, ruleNodeImage_of_notMem hv] at heq

/-- Matches after symmetries send a node where the matches send its image. -/
theorem imageOf_permuted {t : GraphView} {m : List Nat} (hm : r.leftPattern.IsMatch t m) (v : Nat) :
    r.imageOf (Pattern.permuted perm m) v = r.imageOf m (r.ruleNodeImage perm v) := by
  by_cases hv : v ∈ r.sideNodes .left
  · obtain ⟨i, j, hi, hj⟩ := exists_getElem?_of_mem h hv
    have hget := ruleNodeImage_of_getElem? h hi hj
    have hlt := h.mem_lt (List.mem_of_getElem? hj)
    rw [imageOf, imageOf, localNumber?_eq_some_iff.mpr hi, localNumber?_eq_some_iff.mpr hget]
    simp only [Option.bind_eq_bind, Option.bind_some]
    rw [Pattern.getElem?_permuted, hj, Option.map_some, (hm.exists_image hlt).1]
  · rw [ruleNodeImage_of_notMem hv]
    have hnone : r.localNumber? .left v = none := by
      rw [localNumber?, List.idxOf?_eq_none_iff]
      exact hv
    rw [imageOf, imageOf, hnone]
    rfl

theorem ruleNodeImage_surj (w : Nat) : ∃ v, r.ruleNodeImage perm v = w := by
  by_cases hw : w ∈ r.sideNodes .left
  · obtain ⟨j, hj⟩ := List.mem_iff_getElem?.mp hw
    have hlt : j < r.leftPattern.graph.nodeCount := by
      rw [nodeCount_leftPattern]
      exact (List.getElem?_eq_some_iff.mp hj).1
    obtain ⟨i, hi, heq⟩ := h.isIso.exists_preimage hlt
    have hget := h.getElem?_eq hi
    rw [heq] at hget
    rw [nodeCount_leftPattern] at hi
    have himage := ruleNodeImage_of_getElem? h (List.getElem?_eq_getElem hi) hget
    exact ⟨_, Option.some.inj (himage.symm.trans hj)⟩
  · exact ⟨w, ruleNodeImage_of_notMem hw⟩

/-- **The permutations that a run takes for symmetries** send the rule to itself, if edges are drawn
again alike. -/
theorem automorphism_ruleNodeImage (hsymmetry : r.isSymmetry perm = true)
    (hpastes : r.PastesAlike (r.ruleNodeImage perm)) : r.Automorphism (r.ruleNodeImage perm) := by
  simp only [isSymmetry, Bool.and_eq_true, List.all_eq_true, List.mem_range, beq_iff_eq]
    at hsymmetry
  obtain ⟨⟨hnodes, hedges⟩, -⟩ := hsymmetry
  refine ⟨ruleNodeImage_inj h, ruleNodeImage_surj h, fun v => ?_, fun {v} hv => ?_, ?_, hpastes⟩
  · by_cases hv : v < r.nodes.length
    · exact hnodes v hv
    · have hout : v ∉ r.sideNodes .left := fun hmem =>
        hv (List.mem_range.mp (List.mem_of_mem_filter hmem))
      rw [ruleNodeImage_of_notMem hout]
  · refine ruleNodeImage_of_notMem fun hmem => ?_
    obtain ⟨role, hrole, hleft⟩ := mem_sideNodes.mp hmem
    cases hv.symm.trans hrole
    exact absurd hleft Bool.false_ne_true
  · have hbond : ∀ f : Nat → Nat, (r.normalEdges f).map (fun e => (s(e.1, e.2.1), e.2.2)) =
        r.edges.map (ruleBond f) := by
      intro f
      rw [normalEdges, List.map_map]
      refine List.map_congr_left fun e _ => ?_
      simp only [Function.comp_apply, ruleBond, Prod.mk.injEq, and_true]
      rcases Nat.le_total (f e.source) (f e.target) with hle | hle
      · rw [Nat.min_eq_left hle, Nat.max_eq_right hle]
      · rw [Nat.min_eq_right hle, Nat.max_eq_left hle, Sym2.eq_swap]
    have hperm := (List.isPerm_iff.mp hedges).map fun e => (s(e.1, e.2.1), e.2.2)
    rw [hbond, hbond] at hperm
    exact hperm.symm

end

end Rule

end GraphGrammar
