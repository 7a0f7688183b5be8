import GraphGrammar.Proofs.Rewrite.DepthFirst

/-!
# The outcomes of depth-first searches

What a search finds satisfies the goal, and the ids on the path are those of rules that lead to it
from the start, one step after the other. A search that finds nothing, and that met fewer graphs
than the bound on the depth, was not cut off anywhere: all graphs on the way to a graph that was met
are graphs that were met. So it has met one graph of every class of isomorphic graphs that can be
derived.

## Main definitions

* `GraphGrammar.derivableClasses` — the classes of isomorphic graphs that can be derived.

## Main results

* `GraphGrammar.searchRewrites_sound` — what a search finds.
* `GraphGrammar.ncard_derivableClasses` — how many classes there are.
* `GraphGrammar.searchRewrites_exhaustive` — searches that are not cut off.
-/

namespace GraphGrammar

variable {config : GrammarConfig} {limits : SearchLimits} {rules : List Rule} {start : Graph}
  {goal : Graph → Bool}

/-! ### Solutions -/

/-- **What a search finds** satisfies the goal, and the rules of the path lead to it from the start
within the bound on the depth. Without a solution the path is empty. -/
theorem searchRewrites_sound (hconfig : config.validate = .ok ()) (limits : SearchLimits)
    (rules : List Rule) (start : Graph) (goal : Graph → Bool) :
    ∃ outcome, searchRewrites config limits rules start goal = .ok outcome ∧
      (∀ g, outcome.solution = some g → goal g = true ∧ outcome.path.length ≤ limits.maxDepth ∧
        Leads config.rewrite rules start outcome.path g) ∧
      (outcome.solution = none → outcome.path = []) := by
  refine ⟨_, searchRewrites_eq hconfig limits rules start goal, fun g hg => ?_, fun hnone => ?_⟩
  · obtain ⟨decision, hgoes⟩ := goes_recordedState hconfig limits rules start goal
    rw [← toExploration_recordedState] at hg ⊢
    generalize recordedState config limits rules start goal = s at hg hgoes ⊢
    have hsolution : s.solution = some g := hg
    cases hgoes with
    | @solved _ h ids hfound hfault hgoal hleads hlength hpath =>
      obtain rfl := Option.some.inj (hfound.symm.trans hsolution)
      have hids : s.outcome.path = ids := by
        rw [Exploration.outcome, hfound, hpath, Inquiry.meet_toExploration, Inquiry.initial,
          Exploration.initial, List.append_nil]
        exact List.reverse_reverse ids
      rw [hids]
      exact ⟨hgoal, hlength, hleads⟩
    | exhausted hnone => cases hnone.symm.trans hsolution
    | passed hpasses =>
      cases (Exploration.isOver_eq_false_iff.mp hpasses.isOver_eq).1.symm.trans hsolution
  · have hsolution : (searchState config limits rules start goal).solution = none := hnone
    rw [Exploration.outcome, hsolution]
    rfl

/-- From `Y` the goal is found in two steps. -/
theorem searchRewrites_detourRules_isFinished :
    searchRewrites (GrammarConfig.default.breaking false) ⟨5, 100⟩ detourRules (.single "Y")
      Graph.isFinished = .ok ⟨some (.single "G"), ["arrive", "finish"], 2, false⟩ := by
  have hcollects : (UniqueGraphs.add UniqueGraphs.empty (.single "Y")).Collects [.single "Y"] :=
    UniqueGraphs.collects_empty.insert _
  obtain ⟨v₁, hv₁, hcollects⟩ := exists_insert_single hcollects "X" (by decide)
  obtain ⟨v₂, hv₂, -⟩ := exists_insert_single hcollects "G" (by decide)
  obtain ⟨-, harrive, -, hfinish⟩ := rewrite_detourRules
  let config := GrammarConfig.default.breaking false
  let limits : SearchLimits := ⟨5, 100⟩
  have hG : explore config limits Graph.isFinished (prepareDetour detourRules) 3 (.single "G")
      ⟨v₂, ["finish", "arrive"], 2, false, none, none⟩ =
      (⟨v₂, ["finish", "arrive"], 2, false, some (.single "G"), none⟩, .stop) :=
    explore_of_goal (by decide)
  have hX : explore config limits Graph.isFinished (prepareDetour detourRules) 4 (.single "X")
      ⟨v₁, ["arrive"], 1, false, none, none⟩ =
      (⟨v₂, ["finish", "arrive"], 2, false, some (.single "G"), none⟩, .stop) :=
    Eq.trans (explore_detourRules_one (by decide) [_, _, _] _ rfl (by decide) rfl (by decide)
      hfinish (congrArg Prod.fst (expand_of_new_of_stop hv₂ (by decide : 1 < 100) hG)) rfl) rfl
  have hY : explore config limits Graph.isFinished (prepareDetour detourRules) 5 (.single "Y")
      (.initial (.single "Y")) =
      (⟨v₂, ["finish", "arrive"], 2, false, some (.single "G"), none⟩, .stop) :=
    Eq.trans (explore_detourRules_one (by decide) [_] _ rfl (by decide) rfl (by decide) harrive
      (congrArg Prod.fst (expand_of_new_of_stop hv₁ (by decide : 0 < 100) hX)) rfl) rfl
  have hstate : searchState config limits detourRules (.single "Y") Graph.isFinished =
      ⟨v₂, ["finish", "arrive"], 2, false, some (.single "G"), none⟩ := by
    rw [searchState, readyRules_detourRules, hY]
  rw [searchRewrites_eq (by decide), hstate]
  rfl

/-- The rules on the path to the goal lead to it. -/
theorem searchRewrites_sound_detourRules :
    (GrammarConfig.default.breaking false).validate = .ok () ∧
    searchRewrites (GrammarConfig.default.breaking false) ⟨5, 100⟩ detourRules (.single "Y")
      Graph.isFinished = .ok ⟨some (.single "G"), ["arrive", "finish"], 2, false⟩ ∧
    (Graph.single "G").isFinished = true ∧ ["arrive", "finish"].length ≤ 5 ∧
    Leads .default detourRules (.single "Y") ["arrive", "finish"] (.single "G") := by
  have hconfig : (GrammarConfig.default.breaking false).validate = .ok () := rfl
  obtain ⟨outcome, hsearch, hfound, -⟩ :=
    searchRewrites_sound hconfig ⟨5, 100⟩ detourRules (.single "Y") Graph.isFinished
  obtain rfl := Except.ok.inj (searchRewrites_detourRules_isFinished.symm.trans hsearch)
  exact ⟨hconfig, hsearch, hfound _ rfl⟩

/-! ### Classes of isomorphic graphs -/

/-- Graphs up to isomorphism. -/
def Graph.isomorphicSetoid : Setoid Graph where
  r := Graph.Isomorphic
  iseqv := ⟨Graph.Isomorphic.refl, Graph.Isomorphic.symm, Graph.Isomorphic.trans⟩

/-- The classes of isomorphic graphs that can be derived in any number of steps. -/
def derivableClasses (config : RewriteConfig) (rules : List Rule) (start : Graph) :
    Set (Quotient Graph.isomorphicSetoid) :=
  {c | ∃ n g, Derives config rules (fun _ => False) start n g ∧
    Quotient.mk Graph.isomorphicSetoid g = c}

/-- **The number of classes** is the number of graphs of which one represents every class. -/
theorem ncard_derivableClasses {config : RewriteConfig} {graphs : List Graph}
    (hpairwise : graphs.Pairwise fun g k => ¬g.Isomorphic k)
    (hderives : ∀ g ∈ graphs, ∃ n, Derives config rules (fun _ => False) start n g)
    (hcomplete : ∀ n g, Derives config rules (fun _ => False) start n g → Represented graphs g) :
    (derivableClasses config rules start).ncard = graphs.length := by
  classical
  have hset : derivableClasses config rules start =
      ((graphs.map (Quotient.mk Graph.isomorphicSetoid)).toFinset : Set _) := by
    ext c
    rw [List.coe_toFinset, Set.mem_ofPred_eq, List.mem_map]
    constructor
    · rintro ⟨n, g, hg, rfl⟩
      obtain ⟨k, hk, hiso⟩ := hcomplete n g hg
      exact ⟨k, hk, Quotient.sound hiso⟩
    · rintro ⟨g, hg, rfl⟩
      obtain ⟨n, hn⟩ := hderives g hg
      exact ⟨n, g, hn, rfl⟩
  have hnodup : (graphs.map (Quotient.mk Graph.isomorphicSetoid)).Nodup :=
    List.pairwise_map.mpr (hpairwise.imp fun hne heq => hne (Quotient.exact heq))
  rw [hset, Set.ncard_coe_finset, List.toFinset_card_of_nodup hnodup, List.length_map]

/-! ### Searches that are not cut off -/

/-- **A search that is not cut off**, neither by a bound nor by the cap on the number of hits in a
graph that it met, is exhaustive: it finds nothing only if no goal can be derived, and then it has
met one graph of every class of isomorphic graphs that can be derived. -/
theorem searchRewrites_exhaustive (hconfig : config.validate = .ok ())
    (hbreaking : config.search.symmetryBreaking = false) (hliteral : ∀ r ∈ rules, r.TakesLiterals)
    (hgoal : ∀ g h : Graph, g.Isomorphic h → goal g = goal h)
    (hcap : ∀ g ∈ (searchState config limits rules start goal).visited.graphs,
      ∀ r ∈ rules, r.isConsistent = true →
        {m | r.leftPattern.IsMatch g.view m}.ncard ≤ config.search.maxHits) :
    ∃ outcome, searchRewrites config limits rules start goal = .ok outcome ∧
      (outcome.solution = none → outcome.exhausted = false →
        outcome.expansions < limits.maxDepth →
        (∀ n g, Derives config.rewrite rules (fun _ => False) start n g → goal g = false) ∧
          (derivableClasses config.rewrite rules start).ncard = outcome.expansions + 1) := by
  refine ⟨_, searchRewrites_eq hconfig limits rules start goal, fun hnone hcut hshallow => ?_⟩
  obtain ⟨decision, hgoes⟩ := goes_recordedState hconfig limits rules start goal
  rw [← toExploration_recordedState] at hcap hnone hcut hshallow ⊢
  generalize recordedState config limits rules start goal = s at hcap hnone hcut hshallow hgoes ⊢
  cases hgoes with
  | solved hsolution => cases hsolution.symm.trans hnone
  | exhausted _ hexhausted => cases hexhausted.symm.trans hcut
  | passed hpasses hdone =>
    obtain ⟨hfst, hlength, hstart, hmet⟩ :=
      settles_of_passes hbreaking (fun _ g hg _ _ => hcap g hg) hpasses hdone
    obtain ⟨graphs, hcollects⟩ := hpasses.collects ⟨_, UniqueGraphs.collects_empty.insert start⟩
    -- No graph was met at the bound, so that no derivation is stopped there.
    have hreached : ∀ n g, Derives config.rewrite rules (fun _ => False) start n g →
        ∃ p ∈ s.memory, p.1.Isomorphic g := by
      intro n g hg
      refine exists_met_of_derives hstart (fun p hp => (hmet p hp).2) hliteral (hg.mono ?_)
      rintro g ⟨k, hk, -⟩
      exact absurd ((hmet _ hk).1.trans_lt hshallow) (Nat.lt_irrefl _)
    refine ⟨fun n g hg => ?_, ?_⟩
    · obtain ⟨p, hp, hiso⟩ := hreached n g hg
      rw [← hgoal _ _ hiso]
      exact (hmet p hp).2.goal_eq
    · have hcount : (derivableClasses config.rewrite rules start).ncard =
          s.visited.graphs.length := by
        refine ncard_derivableClasses hcollects.pairwise (fun g hg => ?_) fun n g hg => ?_
        · obtain ⟨p, hp, rfl⟩ := List.mem_map.mp (hfst ▸ hg)
          exact ⟨_, (hmet p hp).2.derives⟩
        · obtain ⟨p, hp, hiso⟩ := hreached n g hg
          exact ⟨p.1, hfst ▸ List.mem_map_of_mem hp, hiso⟩
      rw [hcount, ← hfst, List.length_map, hlength]
      rfl

/-- Whether some node has the label `Z`. -/
def Graph.isMarked (g : Graph) : Bool := g.labels.contains "Z"

theorem isMarked_eq_of_isomorphic (g h : Graph) (hiso : g.Isomorphic h) :
    g.isMarked = h.isMarked := by
  rw [Graph.isMarked, Graph.isMarked, Bool.eq_iff_iff, List.contains_iff_mem, List.contains_iff_mem,
    hiso.labels_perm.mem_iff]

/-- With a larger bound on the depth, the search from the start meets the four graphs that can be
derived, one after the other on the detour. -/
theorem searchState_detourRules_isMarked : ∃ visited : UniqueGraphs,
    visited.graphs = detourGraphs ∧
      searchState (GrammarConfig.default.breaking false) ⟨4, 100⟩ detourRules (.single "S")
        Graph.isMarked = ⟨visited, [], 3, false, none, none⟩ := by
  -- What is new among the graphs that are met.
  have hcollects : (UniqueGraphs.add UniqueGraphs.empty (.single "S")).Collects [.single "S"] :=
    UniqueGraphs.collects_empty.insert _
  obtain ⟨v₁, hv₁, hcollects⟩ := exists_insert_single hcollects "Y" (by decide)
  obtain ⟨v₂, hv₂, hcollects⟩ := exists_insert_single hcollects "X" (by decide)
  obtain ⟨v₃, hv₃, hcollects⟩ := exists_insert_single hcollects "G" (by decide)
  obtain ⟨v₄, hv₄⟩ := hcollects.exists_insert_eq_false (g := .single "X")
    ⟨_, List.mem_append_left _ (List.mem_append_right _ (List.mem_singleton_self _)),
      Graph.Isomorphic.refl _⟩
  obtain ⟨-, harrive, -, hfinish⟩ := rewrite_detourRules
  let config := GrammarConfig.default.breaking false
  let limits : SearchLimits := ⟨4, 100⟩
  -- The search from `G`, from `X`, from `Y`, and from `S`.
  have hG : explore config limits Graph.isMarked (prepareDetour detourRules) 1 (.single "G")
      ⟨v₃, ["finish", "arrive", "detour"], 3, false, none, none⟩ =
      (⟨v₃, ["finish", "arrive", "detour"], 3, false, none, none⟩, .proceed) :=
    explore_detourRules_none (by decide) (by decide) (by decide) rfl
  have hX : explore config limits Graph.isMarked (prepareDetour detourRules) 2 (.single "X")
      ⟨v₂, ["arrive", "detour"], 2, false, none, none⟩ =
      (⟨v₃, ["arrive", "detour"], 3, false, none, none⟩, .proceed) :=
    Eq.trans (explore_detourRules_one (by decide) [_, _, _] _ rfl (by decide) rfl (by decide)
      hfinish (congrArg Prod.fst (expand_of_new hv₃ (by decide : 2 < 100) hG)) rfl) rfl
  have hY : explore config limits Graph.isMarked (prepareDetour detourRules) 3 (.single "Y")
      ⟨v₁, ["detour"], 1, false, none, none⟩ =
      (⟨v₃, ["detour"], 3, false, none, none⟩, .proceed) :=
    Eq.trans (explore_detourRules_one (by decide) [_] _ rfl (by decide) rfl (by decide) harrive
      (congrArg Prod.fst (expand_of_new hv₂ (by decide : 1 < 100) hX)) rfl) rfl
  have hS : explore config limits Graph.isMarked (prepareDetour detourRules) 4 (.single "S")
      (.initial (.single "S")) = (⟨v₄, [], 3, false, none, none⟩, .proceed) :=
    Eq.trans (explore_detourRules_start (by decide)
      (congrArg Prod.fst (expand_of_new hv₁ (by decide : 0 < 100) hY)) rfl hv₄) rfl
  refine ⟨v₄, ?_, by rw [searchState, readyRules_detourRules, hS]⟩
  rw [(UniqueGraphs.represented_of_insert_eq_false hv₄).1,
    UniqueGraphs.graphs_of_insert_eq_true hv₃, UniqueGraphs.graphs_of_insert_eq_true hv₂,
    UniqueGraphs.graphs_of_insert_eq_true hv₁, graphs_add_empty]
  rfl

/-- No graph with the label `Z` can be derived by the detour rules, and there are four classes. -/
theorem searchRewrites_exhaustive_detourRules :
    (GrammarConfig.default.breaking false).validate = .ok () ∧
    (∀ r ∈ detourRules, r.TakesLiterals) ∧
    (∀ g h : Graph, g.Isomorphic h → g.isMarked = h.isMarked) ∧
    (∀ g ∈ (searchState (GrammarConfig.default.breaking false) ⟨4, 100⟩ detourRules (.single "S")
        Graph.isMarked).visited.graphs, ∀ r ∈ detourRules, r.isConsistent = true →
      {m | r.leftPattern.IsMatch g.view m}.ncard ≤ GrammarConfig.default.search.maxHits) ∧
    searchRewrites (GrammarConfig.default.breaking false) ⟨4, 100⟩ detourRules (.single "S")
      Graph.isMarked = .ok ⟨none, [], 3, false⟩ ∧
    (∀ n g, Derives .default detourRules (fun _ => False) (.single "S") n g → g.isMarked = false) ∧
    (derivableClasses .default detourRules (.single "S")).ncard = 4 := by
  have hconfig : (GrammarConfig.default.breaking false).validate = .ok () := rfl
  obtain ⟨visited, hgraphs, hstate⟩ := searchState_detourRules_isMarked
  have hcap : ∀ g ∈ (searchState (GrammarConfig.default.breaking false) ⟨4, 100⟩ detourRules
      (.single "S") Graph.isMarked).visited.graphs, ∀ r ∈ detourRules, r.isConsistent = true →
        {m | r.leftPattern.IsMatch g.view m}.ncard ≤ GrammarConfig.default.search.maxHits := by
    rw [hstate, hgraphs]
    exact fun g hg r hr _ => ncard_isMatch_of_mem_detourGraphs hg r hr
  have hfound : searchRewrites (GrammarConfig.default.breaking false) ⟨4, 100⟩ detourRules
      (.single "S") Graph.isMarked = .ok ⟨none, [], 3, false⟩ := by
    rw [searchRewrites_eq hconfig, hstate]
    rfl
  obtain ⟨outcome, hsearch, hexhaustive⟩ := searchRewrites_exhaustive hconfig rfl
    takesLiterals_detourRules isMarked_eq_of_isomorphic hcap
  obtain rfl := Except.ok.inj (hfound.symm.trans hsearch)
  obtain ⟨hgoal, hcount⟩ := hexhaustive rfl rfl (by decide)
  exact ⟨hconfig, takesLiterals_detourRules, isMarked_eq_of_isomorphic, hcap, hsearch, hgoal,
    hcount⟩

end GraphGrammar
