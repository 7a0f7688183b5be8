import GraphGrammar.Proofs.Rewrite.DepthFirst

/-!
# Runs as compositions

A run is put together from its parts: the consistency of a rule, the search for its left side, the
symmetry order of the rule, and the application of the rule at one mapping. It applies the
consistent rules, one after the other, at the matches that a search for the left side reports,
without those that the order rejects, and the cap on the number of hits cuts off the sequence of all
applications. No part can fail, and neither can a depth-first search by the same rules.

## Main definitions

* `GraphGrammar.Pattern.found` — the matches that a search reports.
* `GraphGrammar.applications` — the applications of a run without a cap.

## Main results

* `GraphGrammar.map_applications` — the results of the applications.
* `GraphGrammar.runRules_composition` — a run is the composition of its parts.
-/

namespace GraphGrammar

variable {config : GrammarConfig} {t : GraphView}

/-! ### The matches that are reported -/

/-- The matches of a pattern that a search without symmetry order reports, up to a cap on the number
of hits. -/
def Pattern.found (p : Pattern) (maxHits : Nat) (t : GraphView) : List (List Nat) :=
  (searchOne maxHits storeHits p none t []).state.map fun hit => hit.occurrence.images

theorem Pattern.found_eq_take (p : Pattern) (maxHits : Nat) (t : GraphView) :
    p.found maxHits t = (p.occurrences none t).take maxHits := by
  rw [found, searchOne_state_eq_take, Listener.hear_storeHits, List.nil_append, Pattern.hits,
    ← List.map_take, List.map_map]
  exact List.map_id _

/-- The matches of its left side at which a run applies a rule, in the order of the search: all of
them, or those that are least in the symmetry order of the rule. -/
def Rule.admittedMatches (r : Rule) (search : SearchConfig) (t : GraphView) : List (List Nat) :=
  (r.leftPattern.occurrences none t).filter fun m =>
    !search.symmetryBreaking || (r.symmetryOrder search.maxAutomorphisms).isLeast m

/-- A prepared rule is applied at the admitted matches. -/
theorem Rule.occurrences_eq_admittedMatches (r : Rule) (search : SearchConfig) (t : GraphView) :
    r.leftPattern.occurrences
      (if search.symmetryBreaking then some (r.symmetryOrder search.maxAutomorphisms) else none) t =
        r.admittedMatches search t := by
  rw [admittedMatches]
  cases search.symmetryBreaking with
  | true =>
    rw [if_pos rfl]
    exact Pattern.occurrences_some_eq_filter r.inRange_leftPattern rfl
  | false =>
    rw [if_neg Bool.false_ne_true]
    exact (List.filter_eq_self.mpr fun _ _ => rfl).symm

/-! ### The applications of a run -/

/-- The applications of a run without a cap: the consistent rules in their order, each at its
admitted matches. -/
def applications (config : GrammarConfig) (rules : List Rule) (t : GraphView) :
    List (Rule × List Nat) :=
  (rules.filter Rule.isConsistent).flatMap fun r =>
    (r.admittedMatches config.search t).map fun m => (r, m)

/-- **The applications succeed**, with the results of the run. -/
theorem map_applications (hconfig : config.validate = .ok ()) (rules : List Rule) (t : GraphView) :
    (applications config rules t).map (fun a => applyRule a.1 config.rewrite t a.2) =
      (runResults config rules t).map .ok := by
  rw [applications, runResults, readyRules, List.flatMap_map, List.map_flatMap, List.map_flatMap]
  refine List.flatMap_congr fun r hr => ?_
  have hconsistent : r.isConsistent = true := (List.mem_filter.mp hr).2
  have hcheck : r.checkRewrite config.rewrite = .ok () :=
    Rule.checkRewrite_eq_ok_iff.mpr ⟨hconsistent, GrammarConfig.validate_rewrite hconfig⟩
  have hsound := isSound_of_mem_readyRules
    ((mem_readyRules_iff config.search).mpr ⟨r, List.mem_of_mem_filter hr, hconsistent, rfl⟩)
  rw [← hsound.map_rewrite, Rule.occurrences_eq_admittedMatches, List.map_map]
  refine List.map_congr_left fun m _ => ?_
  rw [Function.comp_apply, applyRule, hcheck]
  rfl

/-- The configuration that is taken if none is given is valid. -/
theorem GrammarConfig.validate_default : GrammarConfig.default.validate = .ok () := rfl

/-- **A run is the composition of its parts**, and nothing fails. A search reports a list of matches
of every left side, up to its cap. A run hands the collector, in their order, the results of the
consistent rules at their admitted matches, of which it takes the first up to its cap, and tells
their number. A depth-first search by the same rules has an outcome. -/
theorem runRules_composition (hconfig : config.validate = .ok ()) (rules : List Rule)
    (t : GraphView) :
    (∀ (r : Rule) (maxHits : Nat),
      r.leftPattern.found maxHits t = (r.leftPattern.occurrences none t).take maxHits) ∧
    (∃ results : List Graph,
      ((applications config rules t).take config.search.maxHits).map
        (fun a => applyRule a.1 config.rewrite t a.2) = results.map .ok ∧
      ∀ {σ : Type} (add : Collector σ) (collected : σ), runRules config add rules t collected =
        ⟨results.foldl (fun s g => add s g) collected, .ok results.length⟩) ∧
    ∀ (limits : SearchLimits) (start : Graph) (goal : Graph → Bool),
      ∃ outcome, searchRewrites config limits rules start goal = .ok outcome := by
  refine ⟨fun r maxHits => r.leftPattern.found_eq_take maxHits t,
    ⟨(runResults config rules t).take config.search.maxHits, ?_, runRules_eq_take hconfig⟩,
    fun limits start goal => ⟨_, searchRewrites_eq hconfig limits rules start goal⟩⟩
  rw [List.map_take, map_applications hconfig, List.map_take]

/-- A rule that cannot be applied, because it does not say which label to write. -/
def Rule.wordless : Rule where
  id := some "wordless"
  nodes := [⟨.labelChange, "S", none⟩]
  edges := []
  constraints := []
  directives := []
  wildcard := none

/-- Rules of which the second one is left out. -/
def gappedRules : List Rule :=
  [.relabel "detour" "S" "Y", .wordless, .relabel "direct" "S" "X"]

/-- The results of the first and the last rule are collected. -/
theorem runRules_composition_gappedRules : GrammarConfig.default.validate = .ok () ∧
    Rule.wordless.isConsistent = false ∧
    runRules .default keepAll gappedRules (Graph.single "S").view [] =
      ⟨[.single "Y", .single "X"], .ok 2⟩ := by
  obtain ⟨-, ⟨results, hresults, hrun⟩, -⟩ :=
    runRules_composition GrammarConfig.validate_default gappedRules (Graph.single "S").view
  have happlied : ((applications .default gappedRules (Graph.single "S").view).take
      GrammarConfig.default.search.maxHits).map
      (fun a => applyRule a.1 .default (Graph.single "S").view a.2) =
        [Graph.single "Y", Graph.single "X"].map Except.ok := by decide +kernel
  have hlist := List.map_injective_iff.mpr (fun _ _ => Except.ok.inj) (hresults.symm.trans happlied)
  rw [hrun keepAll, hlist]
  exact ⟨rfl, rfl, rfl⟩

end GraphGrammar
