import Mathlib
import GraphGrammar.Proofs.Rewrite.Equivariance
import GraphGrammar.Proofs.Rewrite.Runs

/-!
# Symmetric matches

A run that breaks symmetries leaves out the matches that a symmetry of the rule sends to a smaller
match. The results there are isomorphic, so that no class of results is lost, as long as the
symmetry makes no difference to a step. The test for symmetries of a rule only asks that every
directive is sent to a directive, and that the edges are sent to the edges in whatever order. When
directives are repeated, a symmetry may send one that occurs twice to one that occurs once; and
which edges a left-only edge labelled with the wildcard takes depends on the order of the edges
beside it. In both cases a class can be lost.

## Main definitions

* `GraphGrammar.Rule.ActsAlike` — permutations that make no difference to a step.
* `GraphGrammar.SameClasses` — lists of graphs with the same classes of isomorphic graphs.

## Main results

* `GraphGrammar.Rule.exists_admitted` — every match leads to an admitted one with the same result.
* `GraphGrammar.sameClasses_runRules` — breaking symmetries loses no class.
* `GraphGrammar.not_sameClasses_of_two_matches` — when a class is lost.
-/

namespace GraphGrammar

namespace Rule

/-- A permutation of the rule nodes that makes no difference to a step: edges around deleted nodes
are drawn again alike, and left-only edges whose label is the wildcard take the same labels. -/
structure ActsAlike (r : Rule) (φ : Nat → Nat) : Prop where
  /-- Edges are drawn again alike. -/
  pastesAlike : r.PastesAlike φ
  /-- What is left over is taken alike. -/
  takes_perm : ∀ e ∈ r.edges, e.role = .leftOnly → r.wildcard = some e.label →
    ∀ labels, (r.takes e.source e.target labels).Perm (r.takes (φ e.source) (φ e.target) labels)

variable {r : Rule} {t : GraphView} {perm : List Nat}

/-- The permutations of the order of a rule are symmetries of its left side, and of the rule as far
as a run tests that. -/
theorem isSymmetry_of_mem_symmetryOrder {limit : Nat}
    (h : perm ∈ (r.symmetryOrder limit).permutations) :
    r.leftPattern.IsSymmetry perm ∧ r.isSymmetry perm = true := by
  obtain ⟨hmem, -, hne⟩ := SymmetryOrder.mem_ofPermutations_iff.mp h
  obtain ⟨hmem, hsymmetry⟩ := List.mem_filter.mp hmem
  exact ⟨Pattern.isSymmetry_of_mem_automorphisms hmem hne, hsymmetry⟩

/-- A match corresponds to the one that a symmetry makes of it. -/
theorem corresponding_permuted (hr : r.isConsistent = true) (h : r.leftPattern.IsSymmetry perm)
    (hsymmetry : r.isSymmetry perm = true) (hpastes : r.PastesAlike (r.ruleNodeImage perm))
    {m : List Nat} (hm : r.leftPattern.IsMatch t m) :
    r.Corresponding (r.ruleNodeImage perm) (fun v => v) t (Pattern.permuted perm m) t m where
  automorphism := automorphism_ruleNodeImage h hsymmetry hpastes
  isIso := GraphView.IsIso.refl t
  applicable' := applicable_of_isMatch hr (hm.permuted h r.inRange_leftPattern)
  applicable := applicable_of_isMatch hr hm
  imageOf_eq hv := (imageOf_permuted h hm _).symm.trans hv

/-- **The results at symmetric matches** are isomorphic. -/
theorem isomorphic_permuted (hr : r.isConsistent = true) (h : r.leftPattern.IsSymmetry perm)
    (hsymmetry : r.isSymmetry perm = true) (halike : r.ActsAlike (r.ruleNodeImage perm))
    {m : List Nat} (hm : r.leftPattern.IsMatch t m) {config : RewriteConfig} {g g' : Graph}
    (hg' : r.rewrite config t (Pattern.permuted perm m) = .ok g')
    (hg : r.rewrite config t m = .ok g) : g'.Isomorphic g := by
  have hcorresponding := corresponding_permuted hr h hsymmetry halike.pastesAlike hm
  refine hcorresponding.isomorphic hr config (fun e he hrole hlabel => ?_) hg' hg
  exact ⟨halike.takes_perm e he hrole hlabel, fun u v _ _ => rfl⟩

/-- **Every match leads to an admitted one** at which the result is isomorphic. -/
theorem exists_admitted (hr : r.isConsistent = true) {limit : Nat}
    (halike : ∀ perm ∈ (r.symmetryOrder limit).permutations, r.ActsAlike (r.ruleNodeImage perm))
    {m : List Nat} (hm : r.leftPattern.IsMatch t m) {config : RewriteConfig} {g : Graph}
    (hg : r.rewrite config t m = .ok g) :
    ∃ m' g', r.leftPattern.IsMatch t m' ∧ (r.symmetryOrder limit).isLeast m' = true ∧
      r.rewrite config t m' = .ok g' ∧ g.Isomorphic g' := by
  obtain ⟨m', hpath, hmatch, hleast⟩ := Pattern.exists_isLeast r.inRange_leftPattern
    (o := r.symmetryOrder limit) rfl
    (fun perm hperm => (isSymmetry_of_mem_symmetryOrder hperm).1) hm
  -- The results along the way to the smallest match are all isomorphic.
  have hresult : ∃ g', r.rewrite config t m' = .ok g' ∧ g.Isomorphic g' := by
    clear hmatch hleast
    induction hpath with
    | refl => exact ⟨g, hg, Graph.Isomorphic.refl g⟩
    | tail _ hstep ih =>
      obtain ⟨hm, perm, hperm, rfl⟩ := hstep
      obtain ⟨h, hsymmetry⟩ := isSymmetry_of_mem_symmetryOrder hperm
      obtain ⟨g₁, hg₁, hiso₁⟩ := ih
      obtain ⟨g₂, hg₂⟩ := exists_rewrite hr
        (applicable_of_isMatch hr (hm.permuted h r.inRange_leftPattern)) config
      have hiso₂ := isomorphic_permuted hr h hsymmetry (halike perm hperm) hm hg₂ hg₁
      exact ⟨g₂, hg₂, hiso₁.trans hiso₂.symm⟩
  obtain ⟨g', hg', hiso⟩ := hresult
  exact ⟨m', g', hmatch, hleast, hg', hiso⟩

end Rule

/-! ### Runs -/

/-- Lists of graphs with the same classes of isomorphic graphs. -/
def SameClasses (l l' : List Graph) : Prop :=
  (∀ g ∈ l, ∃ g' ∈ l', g.Isomorphic g') ∧ ∀ g' ∈ l', ∃ g ∈ l, g'.Isomorphic g

/-- **Breaking symmetries loses no class of results**, if the symmetries make no difference to a
step. -/
theorem sameClasses_runRules {config : GrammarConfig} {rules : List Rule} {t : GraphView}
    (hconfig : config.validate = .ok ()) (hcap : matchCount rules t ≤ config.search.maxHits)
    (halike : ∀ r ∈ rules, r.isConsistent = true →
      ∀ perm ∈ (r.symmetryOrder config.search.maxAutomorphisms).permutations,
        r.ActsAlike (r.ruleNodeImage perm)) :
    SameClasses (runRules (config.breaking true) keepAll rules t []).collected
      (runRules (config.breaking false) keepAll rules t []).collected := by
  have hcollected : ∀ symmetryBreaking,
      (runRules (config.breaking symmetryBreaking) keepAll rules t []).collected =
        runResults (config.breaking symmetryBreaking) rules t := fun symmetryBreaking =>
    collected_runRules_keepAll hconfig hcap
  rw [hcollected, hcollected]
  constructor
  · intro g hg
    obtain ⟨r, hr, hconsistent, m, hm, -, hresult⟩ := mem_runResults_iff.mp hg
    exact ⟨g, mem_runResults_iff.mpr ⟨r, hr, hconsistent, m, hm, nofun, hresult⟩,
      Graph.Isomorphic.refl g⟩
  · intro g hg
    obtain ⟨r, hr, hconsistent, m, hm, -, hresult⟩ := mem_runResults_iff.mp hg
    obtain ⟨m', g', hm', hleast, hresult', hiso⟩ :=
      Rule.exists_admitted hconsistent (halike r hr hconsistent) hm hresult
    exact ⟨g', mem_runResults_iff.mpr ⟨r, hr, hconsistent, m', hm', fun _ => hleast, hresult'⟩,
      hiso⟩

theorem matchCount_singleton {r : Rule} {t : GraphView} (h : r.isConsistent = true) :
    matchCount [r] t = (r.leftPattern.occurrences none t).length := by
  rw [matchCount, List.filter_cons_of_pos h, List.filter_nil, List.map_singleton,
    List.sum_singleton, Pattern.ncard_isMatch r.inRange_leftPattern]

/-- **A class is lost** if one of two matches is left out, and the results are not isomorphic. -/
theorem not_sameClasses_of_two_matches {config : GrammarConfig} {r : Rule} {t : GraphView}
    (hconfig : config.validate = .ok ()) (hcap : 2 ≤ config.search.maxHits)
    (hr : r.isConsistent = true) {m m' : List Nat}
    (hmatches : r.leftPattern.occurrences none t = [m, m'])
    (hleast : (r.symmetryOrder config.search.maxAutomorphisms).isLeast m' = false) {g g' : Graph}
    (hresult : r.rewrite config.rewrite t m = .ok g)
    (hresult' : r.rewrite config.rewrite t m' = .ok g') (hne : ¬g'.Isomorphic g) :
    matchCount [r] t ≤ config.search.maxHits ∧
      ¬SameClasses (runRules (config.breaking true) keepAll [r] t []).collected
        (runRules (config.breaking false) keepAll [r] t []).collected := by
  have hcount : matchCount [r] t ≤ config.search.maxHits := by
    rw [matchCount_singleton hr, hmatches]
    exact hcap
  refine ⟨hcount, fun h => ?_⟩
  have hcollected : ∀ symmetryBreaking,
      (runRules (config.breaking symmetryBreaking) keepAll [r] t []).collected =
        runResults (config.breaking symmetryBreaking) [r] t := fun symmetryBreaking =>
    collected_runRules_keepAll hconfig hcount
  rw [hcollected, hcollected] at h
  have hmem : ∀ found, found = m ∨ found = m' ↔ r.leftPattern.IsMatch t found := fun found => by
    rw [← Pattern.mem_occurrences_iff r.inRange_leftPattern, hmatches]
    simp
  obtain ⟨kept, hkept, hiso⟩ := h.2 g' (mem_runResults_iff.mpr
    ⟨r, List.mem_singleton_self r, hr, m', (hmem m').mp (.inr rfl),
      fun h => absurd h Bool.false_ne_true, hresult'⟩)
  obtain ⟨r', hr', -, found, hfound, hadmitted, hrewrite⟩ := mem_runResults_iff.mp hkept
  obtain rfl := List.mem_singleton.mp hr'
  rcases (hmem found).mpr hfound with rfl | rfl
  · obtain rfl := Except.ok.inj (hrewrite.symm.trans hresult)
    exact hne hiso
  · exact absurd (hleast.symm.trans (hadmitted rfl)) (by decide)

/-- The rule that removes two nodes `N` and draws their edges again from a node `C`, as often as the
directives say. -/
def Rule.absorb (first second : Nat) : Rule where
  id := some "absorb"
  nodes := [⟨.leftOnly, "N", none⟩, ⟨.leftOnly, "N", none⟩, ⟨.kept, "C", none⟩]
  edges := []
  constraints := []
  directives := List.replicate first ⟨0, 2, none, none⟩ ++ List.replicate second ⟨1, 2, none, none⟩
  wildcard := none

/-- Two nodes `N`, one of which is joined to a node `X`, and a node `C`. -/
def Graph.pendant : Graph where
  labels := ["N", "N", "C", "X"]
  edges := [⟨0, 3, "-"⟩]
  endpoints_lt := by decide

/-- One match of two is left out, and the class of its result is not lost. -/
theorem sameClasses_runRules_absorb : GrammarConfig.default.validate = .ok () ∧
    matchCount [.absorb 1 1] Graph.pendant.view ≤ GrammarConfig.default.search.maxHits ∧
    ((Rule.absorb 1 1).symmetryOrder GrammarConfig.default.search.maxAutomorphisms).permutations =
      [[1, 0, 2]] ∧
    SameClasses
      (runRules (GrammarConfig.default.breaking true) keepAll [.absorb 1 1] Graph.pendant.view
        []).collected
      (runRules (GrammarConfig.default.breaking false) keepAll [.absorb 1 1] Graph.pendant.view
        []).collected := by
  have hconfig : GrammarConfig.default.validate = .ok () := by decide +kernel
  have hcap : matchCount [.absorb 1 1] Graph.pendant.view ≤
      GrammarConfig.default.search.maxHits := by
    rw [matchCount_singleton (by decide +kernel)]
    decide +kernel
  have horder : ((Rule.absorb 1 1).symmetryOrder
      GrammarConfig.default.search.maxAutomorphisms).permutations = [[1, 0, 2]] := by
    decide_cbv
  refine ⟨hconfig, hcap, horder, sameClasses_runRules hconfig hcap fun r hr _ perm hperm => ?_⟩
  obtain rfl := List.mem_singleton.mp hr
  obtain ⟨h, hsymmetry⟩ := Rule.isSymmetry_of_mem_symmetryOrder hperm
  exact ⟨Rule.pastesAlike_of_nodup (Rule.ruleNodeImage_inj h) hsymmetry (by decide),
    fun e he => absurd he List.not_mem_nil⟩

/-- When a directive is repeated, the symmetry of the left side is still taken for one of the rule,
and a class is lost. -/
theorem not_sameClasses_runRules_absorb : GrammarConfig.default.validate = .ok () ∧
    matchCount [.absorb 2 1] Graph.pendant.view ≤ GrammarConfig.default.search.maxHits ∧
    ¬SameClasses
      (runRules (GrammarConfig.default.breaking true) keepAll [.absorb 2 1] Graph.pendant.view
        []).collected
      (runRules (GrammarConfig.default.breaking false) keepAll [.absorb 2 1] Graph.pendant.view
        []).collected := by
  have hconfig : GrammarConfig.default.validate = .ok () := by decide +kernel
  have hmatches : (Rule.absorb 2 1).leftPattern.occurrences none Graph.pendant.view =
      [[0, 1, 2], [1, 0, 2]] := by decide +kernel
  have hleast : ((Rule.absorb 2 1).symmetryOrder
      GrammarConfig.default.search.maxAutomorphisms).isLeast [1, 0, 2] = false := by decide_cbv
  -- The match that stays draws the edge again twice, the one that is left out once.
  have htwice : (Rule.absorb 2 1).rewrite .default Graph.pendant.view [0, 1, 2] =
      .ok ⟨["C", "X"], [⟨0, 1, "-"⟩, ⟨0, 1, "-"⟩], by decide⟩ := by decide_cbv
  have honce : (Rule.absorb 2 1).rewrite .default Graph.pendant.view [1, 0, 2] =
      .ok ⟨["C", "X"], [⟨0, 1, "-"⟩], by decide⟩ := by decide_cbv
  exact ⟨hconfig, not_sameClasses_of_two_matches hconfig (by decide +kernel) (by decide +kernel)
    hmatches hleast htwice honce fun hiso => absurd hiso.length_edges_eq (by decide)⟩

/-- The rule that takes a loop from each of two nodes `N` at which loops `a` and `b` stay. It names
these in one order at the first node and in the other order at the second one. -/
def Rule.unloop : Rule where
  id := some "unloop"
  nodes := [⟨.kept, "N", none⟩, ⟨.kept, "N", none⟩]
  edges := [⟨0, 0, .kept, "a"⟩, ⟨0, 0, .kept, "b"⟩, ⟨0, 0, .leftOnly, "*"⟩,
    ⟨1, 1, .kept, "b"⟩, ⟨1, 1, .kept, "a"⟩, ⟨1, 1, .leftOnly, "*"⟩]
  constraints := []
  directives := []
  wildcard := some "*"

/-- Two nodes `N` with four and three loops. -/
def Graph.bouquets : Graph where
  labels := ["N", "N"]
  edges := [⟨0, 0, "a"⟩, ⟨0, 0, "b"⟩, ⟨0, 0, "c"⟩, ⟨0, 0, "d"⟩,
    ⟨1, 1, "a"⟩, ⟨1, 1, "b"⟩, ⟨1, 1, "c"⟩]
  endpoints_lt := by decide

/-- When left-only edges are labelled with the wildcard, which edges they take depends on the order
in which the edges beside them are named. A symmetry that changes this order is still taken for one
of the rule, and a class is lost. -/
theorem not_sameClasses_runRules_unloop : GrammarConfig.default.validate = .ok () ∧
    matchCount [.unloop] Graph.bouquets.view ≤ GrammarConfig.default.search.maxHits ∧
    ¬SameClasses
      (runRules (GrammarConfig.default.breaking true) keepAll [.unloop] Graph.bouquets.view
        []).collected
      (runRules (GrammarConfig.default.breaking false) keepAll [.unloop] Graph.bouquets.view
        []).collected := by
  have hconfig : GrammarConfig.default.validate = .ok () := by decide +kernel
  have hmatches : Rule.unloop.leftPattern.occurrences none Graph.bouquets.view =
      [[0, 1], [1, 0]] := by decide +kernel
  have hleast : (Rule.unloop.symmetryOrder
      GrammarConfig.default.search.maxAutomorphisms).isLeast [1, 0] = false := by decide_cbv
  -- The match that stays takes the loop `d`, the one that is left out takes the loop `c` instead.
  have htakes : Rule.unloop.rewrite .default Graph.bouquets.view [0, 1] =
      .ok ⟨["N", "N"], [⟨0, 0, "a"⟩, ⟨0, 0, "b"⟩, ⟨0, 0, "c"⟩, ⟨1, 1, "a"⟩, ⟨1, 1, "b"⟩],
        by decide⟩ := by decide_cbv
  have htakes' : Rule.unloop.rewrite .default Graph.bouquets.view [1, 0] =
      .ok ⟨["N", "N"], [⟨0, 0, "a"⟩, ⟨0, 0, "b"⟩, ⟨0, 0, "d"⟩, ⟨1, 1, "a"⟩, ⟨1, 1, "b"⟩],
        by decide⟩ := by decide_cbv
  exact ⟨hconfig, not_sameClasses_of_two_matches hconfig (by decide +kernel) (by decide +kernel)
    hmatches hleast htakes htakes' fun hiso => absurd hiso.edgeLabels_perm (by decide)⟩

end GraphGrammar
