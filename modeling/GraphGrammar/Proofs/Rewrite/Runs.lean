import GraphGrammar.Proofs.Matching.Ordered
import GraphGrammar.Proofs.Rewrite.Copied
import GraphGrammar.Rewrite.Run

/-!
# The results of a run

A run applies every consistent rule at every match of its left side that the symmetry order of the
rule admits. Nothing can fail on the way: matches are mappings at which the rule can be applied. The
collector is therefore handed the results at all these matches, rule by rule, up to the cap on the
number of hits.

## Main definitions

* `GraphGrammar.allHits` — the hits of several patterns.
* `GraphGrammar.runResults` — the results of a run in their order.

## Main results

* `GraphGrammar.searchFrom_state` — a search for several patterns whose listener never halts.
* `GraphGrammar.runRules_eq_take` — what a run collects.
* `GraphGrammar.mem_runResults_iff` — the results are the results at admitted matches.
-/

namespace GraphGrammar

variable {σ : Type} {t : GraphView}

/-! ### Searches for several patterns -/

/-- The hits of several patterns, the first with number `id`, in the order of the search. -/
def allHits (t : GraphView) (id : Nat) (patterns : List (Pattern × Option SymmetryOrder)) :
    List Hit :=
  (patterns.zipIdx id).flatMap fun p => p.1.1.hits p.1.2 t p.2

theorem allHits_cons (id : Nat) (pattern : Pattern × Option SymmetryOrder)
    (rest : List (Pattern × Option SymmetryOrder)) : allHits t id (pattern :: rest) =
      pattern.1.hits pattern.2 t id ++ allHits t (id + 1) rest := by
  rw [allHits, List.zipIdx_cons, List.flatMap_cons, allHits]

/-- **A search for several patterns** by a listener that never halts goes through the first hits up
to the cap. -/
theorem searchFrom_state {report : Listener σ} {patterns : List (Pattern × Option SymmetryOrder)}
    {id : Nat} {s : Tally σ}
    (hproceed : ∀ hit ∈ allHits t id patterns, ∀ s, (report s hit).2 = .proceed) :
    (searchFrom report t id patterns s).state =
      ((allHits t id patterns).take s.budget).foldl (fun s hit => (report s hit).1) s.state := by
  induction patterns generalizing id s with
  | nil =>
    have hnil : allHits t id [] = [] := rfl
    rw [hnil, List.take_nil]
    rfl
  | cons pattern rest ih =>
    obtain ⟨p, order⟩ := pattern
    rw [allHits_cons] at hproceed ⊢
    have hfirst : ∀ hit ∈ p.hits order t id, ∀ s, (report s hit).2 = .proceed := fun hit hmem =>
      hproceed hit (List.mem_append_left _ hmem)
    rw [searchFrom]
    split
    · next hnone => rw [hnone, List.take_zero, List.foldl_nil]
    · next hsome =>
      have hstate := untilHalted_deliver_of_proceed hfirst s
      have hbudget := fun h => budget_eq_zero_of_proceed hfirst (s := s) h
      rw [← searchPattern_eq p order t report id hsome] at hstate hbudget
      rw [List.take_append, List.foldl_append]
      generalize searchPattern report t id p order s = next at hstate hbudget ⊢
      obtain ⟨s', decision⟩ := next
      obtain rfl := hstate
      dsimp only at hbudget ⊢
      have hrest := @ih (id + 1) ⟨((p.hits order t id).take s.budget).foldl
        (fun s hit => (report s hit).1) s.state, s.budget - (p.hits order t id).length,
        s.hits + ((p.hits order t id).take s.budget).length⟩
        fun hit hmem => hproceed hit (List.mem_append_right _ hmem)
      cases decision with
      | proceed => exact hrest
      | nextPattern => exact hrest
      | stop => rw [hbudget (by decide), List.take_zero, List.foldl_nil]

/-! ### Applying rules to hits -/

section

variable {add : Collector σ} {rules : List Rule} {config : RewriteConfig}

/-- The result of the rule of a hit. -/
def resultAt (rules : List Rule) (config : RewriteConfig) (t : GraphView) (hit : Hit) :
    Option Graph := do
  ((← rules[hit.pattern]?).rewrite config t hit.occurrence.images).toOption

theorem applyHit_eq {hit : Hit} {g : Graph} (h : resultAt rules config t hit = some g)
    (s : Harvest σ) : applyHit add rules config t s hit =
      ({ s with collected := add s.collected g, applied := s.applied + 1 }, .proceed) := by
  obtain ⟨r, hr, hresult⟩ := Option.bind_eq_some_iff.mp h
  rw [applyHit, hr]
  cases hrewrite : r.rewrite config t hit.occurrence.images with
  | error fault =>
    rw [hrewrite] at hresult
    cases hresult
  | ok g' =>
    rw [hrewrite] at hresult
    obtain rfl := Option.some.inj hresult
    simp only [hrewrite]

/-- The results of hits one after the other. -/
theorem foldl_applyHit {hits : List Hit} {results : List Graph}
    (h : hits.map (resultAt rules config t) = results.map some) (s : Harvest σ) :
    hits.foldl (fun s hit => (applyHit add rules config t s hit).1) s =
      ⟨results.foldl (fun s g => add s g) s.collected, s.applied + results.length, s.fault⟩ := by
  induction hits generalizing s results with
  | nil =>
    obtain rfl := List.map_eq_nil_iff.mp h.symm
    rfl
  | cons hit hits ih =>
    obtain ⟨g, rest, rfl, hg, hrest⟩ := List.map_eq_cons_iff.mp h.symm
    rw [List.foldl_cons, applyHit_eq hg.symm, ih hrest.symm, List.foldl_cons, List.length_cons]
    simp only [Harvest.mk.injEq, true_and, and_true]
    omega

end

/-! ### Runs -/

theorem checkRules_eq_ok {rules : List Rule} {config : RewriteConfig}
    (h : ∀ r ∈ rules, r.isConsistent = true) (hconfig : config.validate = .ok ()) :
    checkRules rules config = .ok () := by
  induction rules with
  | nil => rfl
  | cons r rules ih =>
    have hr := Rule.checkRewrite_eq_ok_iff.mpr ⟨h r (List.mem_cons_self ..), hconfig⟩
    exact bind_eq_ok_iff.mpr ⟨(), hr, ih fun r hr => h r (List.mem_cons_of_mem _ hr)⟩

theorem GrammarConfig.validate_rewrite {config : GrammarConfig} (h : config.validate = .ok ()) :
    config.rewrite.validate = .ok () := by
  obtain ⟨⟨⟩, -, hrewrite⟩ := bind_eq_ok_iff.mp h
  exact hrewrite

/-- A configuration that breaks symmetries or does not. -/
def GrammarConfig.breaking (config : GrammarConfig) (symmetryBreaking : Bool) : GrammarConfig :=
  { config with search := { config.search with symmetryBreaking } }

section

variable {config : GrammarConfig} {rules : List Rule} {p : ReadyRule}

/-- A prepared rule that is consistent, with its left side, and an order of its size. -/
structure ReadyRule.IsSound (p : ReadyRule) : Prop where
  /-- The rule is consistent. -/
  consistent : p.rule.isConsistent = true
  /-- It comes with its left side. -/
  left_eq : p.left = p.rule.leftPattern
  /-- The order is one of its left side. -/
  size_eq : ∀ o ∈ p.order, o.size = p.rule.leftPattern.graph.nodeCount

theorem isSound_of_mem_readyRules {search : SearchConfig} (h : p ∈ readyRules search rules) :
    p.IsSound := by
  obtain ⟨r, hr, rfl⟩ := List.mem_map.mp h
  refine ⟨(List.mem_filter.mp hr).2, rfl, fun o ho => ?_⟩
  dsimp only at ho
  split at ho
  · obtain rfl := Option.mem_some.mp ho
    rfl
  · cases ho

/-- The rules that are prepared pass the check. -/
theorem checkRules_readyRules_eq_ok (hconfig : config.validate = .ok ()) :
    checkRules ((readyRules config.search rules).map (·.rule)) config.rewrite = .ok () := by
  refine checkRules_eq_ok (fun r hr => ?_) (GrammarConfig.validate_rewrite hconfig)
  obtain ⟨p, hp, rfl⟩ := List.mem_map.mp hr
  exact (isSound_of_mem_readyRules hp).consistent

theorem mem_readyRules_iff (search : SearchConfig) : p ∈ readyRules search rules ↔
    ∃ r ∈ rules, r.isConsistent = true ∧ p = ⟨r, r.leftPattern,
      if search.symmetryBreaking then some (r.symmetryOrder search.maxAutomorphisms)
      else none⟩ := by
  simp only [readyRules, List.mem_map, List.mem_filter, and_assoc]
  exact exists_congr fun r => and_congr_right fun _ => and_congr_right fun _ => eq_comm

namespace ReadyRule.IsSound

variable (h : p.IsSound)

include h

/-- The occurrences of the left side are the matches that the order admits. -/
theorem mem_occurrences_iff {m : List Nat} : m ∈ p.left.occurrences p.order t ↔
    p.rule.leftPattern.IsMatch t m ∧ ∀ o ∈ p.order, o.isLeast m = true := by
  have hsize := h.size_eq
  rw [h.left_eq]
  cases horder : p.order with
  | none =>
    rw [Pattern.mem_occurrences_iff p.rule.inRange_leftPattern]
    exact (and_iff_left fun o ho => nomatch ho).symm
  | some o =>
    rw [Pattern.mem_occurrences_some_iff p.rule.inRange_leftPattern
      (hsize o (horder ▸ Option.mem_some_self o))]
    refine and_congr_right fun _ => ⟨fun hleast o' ho' => ?_, fun hall => hall o rfl⟩
    rwa [← Option.mem_some.mp ho']

theorem length_occurrences_le :
    (p.left.occurrences p.order t).length ≤ {m | p.rule.leftPattern.IsMatch t m}.ncard := by
  have hsize := h.size_eq
  rw [h.left_eq, Pattern.ncard_isMatch p.rule.inRange_leftPattern]
  cases horder : p.order with
  | none => exact Nat.le_refl _
  | some o =>
    exact Pattern.length_occurrences_le p.rule.inRange_leftPattern
      (hsize o (horder ▸ Option.mem_some_self o))

/-- A prepared rule can be applied at every occurrence of its left side. -/
theorem exists_rewrite (config : RewriteConfig) {m : List Nat}
    (hm : m ∈ p.left.occurrences p.order t) : ∃ g, p.rule.rewrite config t m = .ok g :=
  Rule.exists_rewrite h.consistent
    (Rule.applicable_of_isMatch h.consistent (h.mem_occurrences_iff.mp hm).1) config

end ReadyRule.IsSound

/-- The results of a prepared rule, in the order of the occurrences of its left side. -/
def ReadyRule.results (p : ReadyRule) (config : RewriteConfig) (t : GraphView) : List Graph :=
  (p.left.occurrences p.order t).filterMap fun m => (p.rule.rewrite config t m).toOption

/-- At every occurrence there is a result. -/
theorem ReadyRule.IsSound.map_rewrite (h : p.IsSound) (config : RewriteConfig) :
    (p.left.occurrences p.order t).map (p.rule.rewrite config t) =
      (p.results config t).map .ok := by
  rw [ReadyRule.results, List.map_filterMap, ← List.filterMap_eq_map']
  refine List.filterMap_congr fun m hm => ?_
  obtain ⟨g, hg⟩ := h.exists_rewrite config hm
  rw [hg]
  rfl

theorem ReadyRule.IsSound.mem_results_iff (h : p.IsSound) {config : RewriteConfig} {g : Graph} :
    g ∈ p.results config t ↔ ∃ m, p.rule.leftPattern.IsMatch t m ∧
      (∀ o ∈ p.order, o.isLeast m = true) ∧ p.rule.rewrite config t m = .ok g := by
  simp only [ReadyRule.results, List.mem_filterMap, h.mem_occurrences_iff, and_assoc]
  refine exists_congr fun m => and_congr_right fun _ => and_congr_right fun _ => ?_
  cases p.rule.rewrite config t m <;> simp [Except.toOption]

/-- The results of a run, rule by rule. -/
def runResults (config : GrammarConfig) (rules : List Rule) (t : GraphView) : List Graph :=
  (readyRules config.search rules).flatMap fun p => p.results config.rewrite t

/-- **The results of a run** are the results of the consistent rules at the matches of their left
sides that are admitted. -/
theorem mem_runResults_iff {g : Graph} : g ∈ runResults config rules t ↔
    ∃ r ∈ rules, r.isConsistent = true ∧ ∃ m, r.leftPattern.IsMatch t m ∧
      (config.search.symmetryBreaking = true →
        (r.symmetryOrder config.search.maxAutomorphisms).isLeast m = true) ∧
      r.rewrite config.rewrite t m = .ok g := by
  rw [runResults, List.mem_flatMap]
  constructor
  · rintro ⟨p, hp, hg⟩
    obtain ⟨m, hm, hleast, hresult⟩ := (isSound_of_mem_readyRules hp).mem_results_iff.mp hg
    obtain ⟨r, hr, hconsistent, rfl⟩ := (mem_readyRules_iff _).mp hp
    refine ⟨r, hr, hconsistent, m, hm, fun hbreaking => hleast _ ?_, hresult⟩
    dsimp only
    rw [if_pos hbreaking]
    exact Option.mem_some_self _
  · rintro ⟨r, hr, hconsistent, m, hm, hleast, hresult⟩
    have hp := (mem_readyRules_iff config.search).mpr ⟨r, hr, hconsistent, rfl⟩
    refine ⟨_, hp, (isSound_of_mem_readyRules hp).mem_results_iff.mpr
      ⟨m, hm, fun o ho => ?_, hresult⟩⟩
    dsimp only at ho
    split at ho
    · next hbreaking => exact Option.mem_some.mp ho ▸ hleast hbreaking
    · cases ho

/-- The number of matches of the left sides of the consistent rules. -/
noncomputable def matchCount (rules : List Rule) (t : GraphView) : Nat :=
  ((rules.filter Rule.isConsistent).map fun r => {m | r.leftPattern.IsMatch t m}.ncard).sum

theorem length_runResults_le : (runResults config rules t).length ≤ matchCount rules t := by
  rw [runResults, List.length_flatMap, readyRules, List.map_map, matchCount]
  refine List.sum_le_sum fun r hr => (List.length_filterMap_le _ _).trans ?_
  have hready := List.mem_map_of_mem (f := fun r : Rule =>
    (⟨r, r.leftPattern, if config.search.symmetryBreaking then
      some (r.symmetryOrder config.search.maxAutomorphisms) else none⟩ : ReadyRule)) hr
  exact (isSound_of_mem_readyRules hready).length_occurrences_le

/-- At every hit, the rule at the place of its pattern is applied. -/
theorem map_allHits {prepared : List ReadyRule} (h : ∀ p ∈ prepared, p.IsSound)
    (config : RewriteConfig) : (allHits t 0 (prepared.map fun p => (p.left, p.order))).map
      (resultAt (prepared.map (·.rule)) config t) =
        (prepared.flatMap fun p => p.results config t).map some := by
  have hplace : ∀ p ∈ prepared.zipIdx, (p.1.left.hits p.1.order t p.2).map
      (resultAt (prepared.map (·.rule)) config t) = (p.1.results config t).map some := by
    intro p hp
    have hmem := List.mem_zipIdx_iff_getElem?.mp hp
    have hget : (prepared.map (·.rule))[p.2]? = some p.1.rule := by
      rw [List.getElem?_map, hmem, Option.map_some]
    have hresults := congrArg (List.map Except.toOption)
      ((h p.1 (List.mem_of_getElem? hmem)).map_rewrite config (t := t))
    rw [List.map_map, List.map_map] at hresults
    refine Eq.trans ?_ hresults
    rw [Pattern.hits, List.map_map]
    refine List.map_congr_left fun m _ => ?_
    simp only [Function.comp_apply, resultAt, hget]
    rfl
  have hfst : ∀ l : List (ReadyRule × Nat), (l.flatMap fun p => (p.1.results config t).map some) =
      (l.map Prod.fst).flatMap fun p => (p.results config t).map some := fun l => by
    rw [List.flatMap_map]
  rw [allHits, List.map_flatMap, List.map_flatMap, List.zipIdx_map, List.flatMap_map]
  exact (List.flatMap_congr hplace).trans ((hfst _).trans (by rw [List.zipIdx_map_fst]))

/-- **What a run collects**: its first results up to the cap on the number of hits, one after the
other. -/
theorem runRules_eq_take (hconfig : config.validate = .ok ()) (add : Collector σ) (collected : σ) :
    runRules config add rules t collected =
      ⟨((runResults config rules t).take config.search.maxHits).foldl (fun s g => add s g)
          collected,
        .ok ((runResults config rules t).take config.search.maxHits).length⟩ := by
  have hcheck : checkRules ((readyRules config.search rules).map (·.rule)) config.rewrite =
      .ok () := checkRules_readyRules_eq_ok hconfig
  have hsound : ∀ p ∈ readyRules config.search rules, p.IsSound := fun p hp =>
    isSound_of_mem_readyRules hp
  have hresults := map_allHits (t := t) hsound config.rewrite
  have hproceed : ∀ hit ∈ allHits t 0
      ((readyRules config.search rules).map fun p => (p.left, p.order)),
      ∀ s, (applyHit add ((readyRules config.search rules).map (·.rule)) config.rewrite t s
        hit).2 = .proceed := by
    intro hit hmem s
    have hresult := List.mem_map_of_mem
      (f := resultAt ((readyRules config.search rules).map (·.rule)) config.rewrite t) hmem
    rw [hresults] at hresult
    obtain ⟨g, -, hg⟩ := List.mem_map.mp hresult
    rw [applyHit_eq hg.symm]
  have hstate :=
    searchFrom_state (s := ⟨Harvest.start collected, config.search.maxHits, 0⟩) hproceed
  have hfirst := congrArg (List.take config.search.maxHits) hresults
  rw [← List.map_take, ← List.map_take] at hfirst
  rw [foldl_applyHit hfirst] at hstate
  rw [runRules, runReady]
  simp only [hcheck, searchAll]
  rw [hstate, runResults, Harvest.start, Nat.zero_add]
  rfl

/-- As long as the cap is not exceeded, a run collects all its results. -/
theorem runRules_eq (hconfig : config.validate = .ok ())
    (hcap : matchCount rules t ≤ config.search.maxHits) (add : Collector σ) (collected : σ) :
    runRules config add rules t collected =
      ⟨(runResults config rules t).foldl (fun s g => add s g) collected,
        .ok (runResults config rules t).length⟩ := by
  rw [runRules_eq_take hconfig, List.take_of_length_le (length_runResults_le.trans hcap)]

/-- A run whose results are all kept. -/
theorem collected_runRules_keepAll (hconfig : config.validate = .ok ())
    (hcap : matchCount rules t ≤ config.search.maxHits) :
    (runRules config keepAll rules t []).collected = runResults config rules t := by
  have hkeep : ∀ l l' : List Graph, l'.foldl (fun s g => keepAll s g) l = l ++ l' := by
    intro l l'
    induction l' generalizing l with
    | nil => rw [List.foldl_nil, List.append_nil]
    | cons g l' ih => rw [List.foldl_cons, ih, keepAll, List.append_assoc, List.singleton_append]
  rw [runRules_eq hconfig hcap, hkeep, List.nil_append]

end

end GraphGrammar
