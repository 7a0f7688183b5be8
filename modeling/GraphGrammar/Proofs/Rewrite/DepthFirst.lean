import GraphGrammar.Proofs.Rewrite.Course

/-!
# Depth-first searches

The search from a start meets graphs at depths up to the bound, and a goal that is shown the path
records these depths. None of the graphs satisfies the goal if the search ends without a solution,
and not because of the bound on the number of graphs. If every step is tried, what a graph rewrites
to in one step was met as well, up to isomorphism, unless the graph was met at the bound on the
depth. Then no goal can be derived without going on from a graph that was met at this bound. More
cannot be said: a graph that was first met at the bound is not gone on from when it is met again at
a smaller depth.

## Main definitions

* `GraphGrammar.Settles` — what holds of a graph that the search is done with.
* `GraphGrammar.searchState` — the state in which a search ends.
* `GraphGrammar.recordedState` — the same state, with the depths at which graphs were met.
* `GraphGrammar.detourRules` — rules by which a graph is first met on a detour.

## Main results

* `GraphGrammar.settles_of_passes` — what a search that passes is done with.
* `GraphGrammar.exists_met_of_derives` — what was met.
* `GraphGrammar.searchRewrites_complete` — what a search cannot miss.
* `GraphGrammar.searchRewrites_misses_detourRules` — a goal within the bound that is missed.
-/

namespace GraphGrammar

/-- What holds of a graph that was met after a number of steps, when the search is done with it and
has met some graphs. -/
structure Settles (config : GrammarConfig) (limits : SearchLimits) (rules : List Rule)
    (start : Graph) (goal : Graph → Bool) (graphs : List Graph) (p : Graph × Nat) : Prop where
  /-- It can be derived in that number of steps. -/
  derives : Derives config.rewrite rules (fun _ => False) start p.2 p.1
  /-- The number is within the bound. -/
  depth_le : p.2 ≤ limits.maxDepth
  /-- It does not satisfy the goal. -/
  goal_eq : goal p.1 = false
  /-- What it rewrites to was met, unless it was met at the bound. -/
  closed : p.2 < limits.maxDepth → ∀ g, Rewrites config.rewrite rules p.1 g → Represented graphs g

section

variable {config : GrammarConfig} {limits : SearchLimits} {rules : List Rule} {start : Graph}
  {goal : Graph → Bool}

/-! ### Single steps -/

section

variable {id : String} {child : Graph} {visited : UniqueGraphs}
  {descend : Graph → Exploration → Exploration × Decision}
  {s s' : Exploration} {p : ReadyRule} {t : GraphView} {m : List Nat}

/-- A graph that was seen before is not gone on from. -/
theorem expand_of_seen (h : s.visited.insert child = (visited, false)) :
    expand limits descend id child s = ({ s with visited }, .proceed) := by
  rw [expand, h]

/-- A new graph is gone on from. -/
theorem expand_of_new (h : s.visited.insert child = (visited, true))
    (hlt : s.expansions < limits.maxExpansions) (hdescend : descend child
      { s with visited, expansions := s.expansions + 1, path := id :: s.path } = (s', .proceed)) :
    expand limits descend id child s = ({ s' with path := s'.path.tail }, .proceed) := by
  rw [expand, h]
  dsimp only
  rw [if_neg (Nat.not_le.mpr hlt), hdescend]

/-- Where the search from a new graph ends, it ends. -/
theorem expand_of_new_of_stop (h : s.visited.insert child = (visited, true))
    (hlt : s.expansions < limits.maxExpansions) (hdescend : descend child
      { s with visited, expansions := s.expansions + 1, path := id :: s.path } = (s', .stop)) :
    expand limits descend id child s = (s', .stop) := by
  rw [expand, h]
  dsimp only
  rw [if_neg (Nat.not_le.mpr hlt), hdescend]

/-- At the bound on the number of graphs, a new graph ends the search. -/
theorem expand_of_new_of_le (h : s.visited.insert child = (visited, true))
    (hle : limits.maxExpansions ≤ s.expansions) :
    expand limits descend id child s = ({ s with visited, exhausted := true }, .stop) := by
  rw [expand, h]
  exact if_pos hle

/-- The search ends at a goal. -/
theorem explore_of_goal {prepared : List ReadyRule} {depth : Nat} {g : Graph}
    (h : goal g = true) : explore config limits goal prepared depth g s =
      ({ s with solution := some g }, .stop) := by
  cases depth <;> exact if_pos h

/-- A rule without a match is passed over. -/
theorem exploreRule_of_nil (h : p.left.occurrences p.order t = []) (hs : s.isOver = false) :
    exploreRule config limits descend t p s = (s, .proceed) := by
  have hlength : (p.left.occurrences p.order t).length ≤ config.search.maxHits := by
    rw [h]
    exact Nat.zero_le _
  rw [exploreRule, searchOne_state _ _ _ hlength, Pattern.hits, h]
  exact Prod.ext rfl (if_neg (by simp [Listener.hear, hs]))

/-- A rule with one match is applied there. -/
theorem exploreRule_of_singleton (h : p.left.occurrences p.order t = [m])
    (hcap : 1 ≤ config.search.maxHits) (hresult : p.rule.rewrite config.rewrite t m = .ok child)
    (hexpand : (expand limits descend (p.rule.id.getD "") child s).1 = s') :
    exploreRule config limits descend t p s =
      (s', if s'.isOver then .stop else .proceed) := by
  have hlength : (p.left.occurrences p.order t).length ≤ config.search.maxHits := by
    rw [h]
    exact hcap
  have hstate : (Listener.hear (expandHit config.rewrite limits descend p.rule t) [⟨0, ⟨m⟩⟩] s).1 =
      s' := by
    simp only [Listener.hear, untilHalted, expandHit, hresult]
    rw [← hexpand]
    cases expand limits descend (p.rule.id.getD "") child s with
    | mk s' decision => cases decision <;> rfl
  rw [exploreRule, searchOne_state _ _ _ hlength, Pattern.hits, h]
  simp only [List.map_singleton, hstate]

end

/-! ### The whole search -/

theorem graphs_add_empty (g : Graph) : (UniqueGraphs.add UniqueGraphs.empty g).graphs = [g] := by
  rw [UniqueGraphs.add]
  cases hinsert : UniqueGraphs.empty.insert g with
  | mk visited new =>
    cases new with
    | true => exact UniqueGraphs.graphs_of_insert_eq_true hinsert
    | false =>
      obtain ⟨-, k, hk, -⟩ := UniqueGraphs.represented_of_insert_eq_false hinsert
      exact absurd hk List.not_mem_nil

/-- The state in which the search from the start ends. -/
def searchState (config : GrammarConfig) (limits : SearchLimits) (rules : List Rule) (start : Graph)
    (goal : Graph → Bool) : Exploration :=
  (explore config limits goal (readyRules config.search rules) limits.maxDepth start
    (.initial start)).1

/-- What the search tells of the state in which it ends. -/
def Exploration.outcome (s : Exploration) : Outcome :=
  ⟨s.solution, if s.solution.isSome then s.path.reverse else [], s.expansions, s.exhausted⟩

/-- The state in which the search from the start ends whose goal is shown the path and has a
memory. -/
def watchedState {τ : Type} (config : GrammarConfig) (limits : SearchLimits) (rules : List Rule)
    (start : Graph) (watch : Watcher τ) (memory : τ) : Inquiry τ :=
  (exploreWatching config limits watch (readyRules config.search rules) limits.maxDepth start
    (.initial start memory)).1

/-- The search with a goal that has a memory ends in the same state. -/
theorem toExploration_watchedState {τ : Type} {watch : Watcher τ} (hwatch : watch.Answers goal)
    (memory : τ) : (watchedState config limits rules start watch memory).toExploration =
      searchState config limits rules start goal :=
  (congrArg Prod.fst (exploreWatching_follows hwatch config limits (readyRules config.search rules)
    limits.maxDepth start (.initial start memory))).symm

/-- The state in which the search from the start ends, with the graphs that it met and the numbers
of steps after which it met them. -/
def recordedState (config : GrammarConfig) (limits : SearchLimits) (rules : List Rule)
    (start : Graph) (goal : Graph → Bool) : Recorded :=
  watchedState config limits rules start (.recording goal) []

theorem toExploration_recordedState :
    (recordedState config limits rules start goal).toExploration =
      searchState config limits rules start goal :=
  toExploration_watchedState (Watcher.answers_recording goal) []

/-- How the search from the start may end. -/
theorem goes_recordedState (hconfig : config.validate = .ok ()) (limits : SearchLimits)
    (rules : List Rule) (start : Graph) (goal : Graph → Bool) :
    ∃ decision, ((Inquiry.initial start []).meet start).Goes config rules goal limits.maxDepth start
      (fun graphs => Searched config rules goal limits.maxDepth start graphs (start, []))
      (recordedState config limits rules start goal, decision) :=
  ⟨_, Inquiry.goes_exploreWatching hconfig rfl⟩

theorem fault_searchState (hconfig : config.validate = .ok ()) (limits : SearchLimits)
    (rules : List Rule) (start : Graph) (goal : Graph → Bool) :
    (searchState config limits rules start goal).fault = none := by
  obtain ⟨decision, hgoes⟩ := goes_recordedState hconfig limits rules start goal
  rw [← toExploration_recordedState]
  exact hgoes.fault_eq

/-- **A search with a valid configuration** does not fail. -/
theorem searchRewrites_eq (hconfig : config.validate = .ok ()) (limits : SearchLimits)
    (rules : List Rule) (start : Graph) (goal : Graph → Bool) :
    searchRewrites config limits rules start goal =
      .ok (searchState config limits rules start goal).outcome := by
  refine bind_eq_ok_iff.mpr ⟨(), checkRules_readyRules_eq_ok hconfig, ?_⟩
  rw [← Exploration.initial, ← searchState]
  simp only [fault_searchState hconfig limits rules start goal]
  rfl

/-- **The memory does not matter** for what a search finds. -/
theorem searchWatching_eq {τ : Type} {watch : Watcher τ} (hconfig : config.validate = .ok ())
    (hwatch : watch.Answers goal) (memory : τ) :
    searchWatching config limits rules start watch memory =
      .ok ((searchState config limits rules start goal).outcome,
        (watchedState config limits rules start watch memory).memory) := by
  refine bind_eq_ok_iff.mpr ⟨(), checkRules_readyRules_eq_ok hconfig, ?_⟩
  have hfault := fault_searchState hconfig limits rules start goal
  rw [← toExploration_watchedState hwatch memory] at hfault ⊢
  rw [← watchedState]
  simp only [hfault]
  rfl

theorem Searched.derives {graphs : List Graph} {p : Graph × List String}
    (h : Searched config rules goal limits.maxDepth start graphs p) :
    Derives config.rewrite rules (fun _ => False) start p.2.length p.1 := by
  simpa using h.leads.derives .refl

/-- A graph with which the search is done when every step from it is tried. -/
theorem Searched.settles {graphs : List Graph} {p : Graph × List String}
    (h : Searched config rules goal limits.maxDepth start graphs p)
    (hbreaking : config.search.symmetryBreaking = false)
    (hcap : p.2.length < limits.maxDepth → ∀ r ∈ rules, r.isConsistent = true →
      {m | r.leftPattern.IsMatch p.1.view m}.ncard ≤ config.search.maxHits) :
    Settles config limits rules start goal graphs (p.1, p.2.length) :=
  ⟨h.derives, h.length_le, h.goal_eq, fun hlt k hstep =>
    h.closed hlt k (hstep.tries hbreaking (hcap hlt))⟩

/-- A search from the start that passes has recorded as many graphs as it counts, and the start. It
is done with them, and none of them was met after more steps than it counts graphs, because all
graphs on the way were met. -/
theorem settles_of_passes {met : List (Graph × List String)} {s : Recorded}
    (hbreaking : config.search.symmetryBreaking = false)
    (hcap : ∀ n, ∀ g ∈ s.visited.graphs, Derives config.rewrite rules (fun _ => False) start n g →
      n < limits.maxDepth → ∀ r ∈ rules, r.isConsistent = true →
        {m | r.leftPattern.IsMatch g.view m}.ncard ≤ config.search.maxHits)
    (hpasses : ((Inquiry.initial start []).meet start).Passes config rules goal limits.maxDepth
      start met s)
    (hdone : Searched config rules goal limits.maxDepth start s.visited.graphs (start, [])) :
    s.memory.map Prod.fst = s.visited.graphs ∧ s.memory.length = s.expansions + 1 ∧
      (start, 0) ∈ s.memory ∧ ∀ p ∈ s.memory, p.2 ≤ s.expansions ∧
        Settles config limits rules start goal (s.memory.map Prod.fst) p := by
  have hexpansions : s.expansions = met.length := by
    rw [hpasses.expansions_eq, Inquiry.meet_toExploration, Inquiry.initial, Exploration.initial,
      Nat.zero_add]
  have hmemory : s.memory = ((start, []) :: met).map fun p => (p.1, p.2.length) := by
    simp [hpasses.memory_eq, Inquiry.meet, Inquiry.initial, Exploration.initial]
  have hfst : s.memory.map Prod.fst = s.visited.graphs := by
    rw [hmemory, hpasses.graphs_eq, Inquiry.meet_toExploration, Inquiry.initial,
      Exploration.initial, graphs_add_empty, List.map_map]
    rfl
  refine ⟨hfst, by rw [hmemory, List.length_map, List.length_cons, hexpansions],
    hmemory ▸ List.mem_cons_self .., fun p hp => ?_⟩
  have hmem : p.1 ∈ s.visited.graphs := hfst ▸ List.mem_map_of_mem hp
  rw [hmemory] at hp
  obtain ⟨q, hq, rfl⟩ := List.mem_map.mp hp
  have hlength : q.2.length ≤ s.expansions := by
    rcases List.mem_cons.mp hq with rfl | hq
    · exact Nat.zero_le _
    · exact hexpansions ▸ hpasses.length_le q hq
  have hsearched : Searched config rules goal limits.maxDepth start s.visited.graphs q := by
    rcases List.mem_cons.mp hq with rfl | hq
    · exact hdone
    · exact hpasses.searched q hq
  rw [hfst]
  exact ⟨hlength, hsearched.settles hbreaking (hcap _ _ hmem hsearched.derives)⟩

/-- What can be derived without going on from graphs that were met at the bound was met, up to
isomorphism. -/
theorem exists_met_of_derives {met : List (Graph × Nat)} (hstart : (start, 0) ∈ met)
    (hsettles : ∀ p ∈ met, Settles config limits rules start goal (met.map Prod.fst) p)
    (hliteral : ∀ r ∈ rules, r.TakesLiterals) {n : Nat} {g : Graph}
    (h : Derives config.rewrite rules
      (fun g => ∃ k, (k, limits.maxDepth) ∈ met ∧ k.Isomorphic g) start n g) :
    ∃ p ∈ met, p.1.Isomorphic g := by
  induction h with
  | refl => exact ⟨_, hstart, Graph.Isomorphic.refl start⟩
  | @tail n g g' _ hfree hstep ih =>
    obtain ⟨⟨k, depth⟩, hmem, hiso⟩ := ih
    have hsettled := hsettles _ hmem
    have hlt : depth < limits.maxDepth := by
      refine Nat.lt_of_le_of_ne hsettled.depth_le fun heq => hfree ⟨k, ?_, hiso⟩
      rwa [← heq]
    obtain ⟨k', hstep', hiso'⟩ := hstep.exists_isomorphic hliteral hiso.symm
    obtain ⟨h, hh, hisoh⟩ := hsettled.closed hlt k' hstep'
    obtain ⟨p, hp, rfl⟩ := List.mem_map.mp hh
    exact ⟨p, hp, hisoh.trans hiso'.symm⟩

end

/-! ### A goal that is missed -/

/-- The graph with one node. -/
def Graph.single (label : String) : Graph := ⟨[label], [], nofun⟩

/-- The rule that writes one label over another one. -/
def Rule.relabel (id old new : String) : Rule where
  id := some id
  nodes := [⟨.labelChange, old, some new⟩]
  edges := []
  constraints := []
  directives := []
  wildcard := none

/-- Rules by which the label `X` is first reached in two steps, and then in one. -/
def detourRules : List Rule :=
  [.relabel "detour" "S" "Y", .relabel "arrive" "Y" "X", .relabel "direct" "S" "X",
    .relabel "finish" "X" "G"]

/-- The graphs that can be derived by these rules from the first one. -/
def detourGraphs : List Graph := [.single "S", .single "Y", .single "X", .single "G"]

/-- Whether exactly one node has the label `G`. -/
def Graph.isFinished (g : Graph) : Bool := g.labels.count "G" == 1

theorem isFinished_eq_of_isomorphic (g h : Graph) (hiso : g.Isomorphic h) :
    g.isFinished = h.isFinished := by
  rw [Graph.isFinished, Graph.isFinished, hiso.labels_perm.count_eq]

theorem takesLiterals_detourRules : ∀ r ∈ detourRules, r.TakesLiterals := fun r hr e he => by
  have hedges : ∀ r ∈ detourRules, r.edges = [] := by decide
  rw [hedges r hr] at he
  exact absurd he List.not_mem_nil

theorem occurrences_detourRules : ∀ g ∈ detourGraphs, ∀ r ∈ detourRules,
    r.leftPattern.occurrences none g.view =
      if r.nodes.map RuleNode.label = g.labels then [[0]] else [] := by decide +kernel

theorem rewrite_detourRules :
    (Rule.relabel "detour" "S" "Y").rewrite .default (Graph.single "S").view [0] =
      .ok (.single "Y") ∧
    (Rule.relabel "arrive" "Y" "X").rewrite .default (Graph.single "Y").view [0] =
      .ok (.single "X") ∧
    (Rule.relabel "direct" "S" "X").rewrite .default (Graph.single "S").view [0] =
      .ok (.single "X") ∧
    (Rule.relabel "finish" "X" "G").rewrite .default (Graph.single "X").view [0] =
      .ok (.single "G") := by decide +kernel

/-- Where a rule matches, it is applied to the only node. -/
theorem rewrites_detourRules {g g' : Graph} (hg : g ∈ detourGraphs) {r : Rule}
    (hr : r ∈ detourRules)
    (hlabel : r.nodes.map RuleNode.label = g.labels)
    (hresult : r.rewrite .default g.view [0] = .ok g') : Rewrites .default detourRules g g' := by
  have hconsistent : ∀ r ∈ detourRules, r.isConsistent = true := by decide
  refine ⟨r, hr, [0], (Pattern.mem_occurrences_iff r.inRange_leftPattern).mp ?_,
    applyRule_eq_ok_iff.mpr ⟨hconsistent r hr, rfl, hresult⟩⟩
  rw [occurrences_detourRules g hg r hr, if_pos hlabel]
  exact List.mem_singleton_self _

/-- There are never too many matches. -/
theorem ncard_isMatch_of_mem_detourGraphs {g : Graph} (hg : g ∈ detourGraphs) : ∀ r ∈ detourRules,
    {m | r.leftPattern.IsMatch g.view m}.ncard ≤ GrammarConfig.default.search.maxHits := by
  have hcap : ∀ g ∈ detourGraphs, ∀ r ∈ detourRules,
      (r.leftPattern.occurrences none g.view).length ≤
        GrammarConfig.default.search.maxHits := by decide +kernel
  intro r hr
  rw [Pattern.ncard_isMatch r.inRange_leftPattern]
  exact hcap g hg r hr

theorem ncard_isMatch_detourRules {barrier : Graph → Prop} {n : Nat} {g : Graph}
    (h : Derives .default detourRules barrier (.single "S") n g) : ∀ r ∈ detourRules,
    {m | r.leftPattern.IsMatch g.view m}.ncard ≤ GrammarConfig.default.search.maxHits := by
  have hclosed : ∀ g ∈ detourGraphs, ∀ r ∈ detourRules,
      ∀ m ∈ r.leftPattern.occurrences none g.view,
        ∀ g' ∈ (r.rewrite .default g.view m).toOption, g' ∈ detourGraphs := by decide +kernel
  exact ncard_isMatch_of_mem_detourGraphs (h.mem_of_closed hclosed (List.mem_cons_self ..))

/-- Detour rules as they are prepared when symmetries are not broken. -/
def prepareDetour (rules : List Rule) : List ReadyRule :=
  rules.map fun r => ⟨r, r.leftPattern, none⟩

theorem readyRules_detourRules :
    readyRules (GrammarConfig.default.breaking false).search detourRules =
      prepareDetour detourRules := by
  rw [readyRules, List.filter_eq_self.mpr (by decide)]
  rfl

section

variable {g child : Graph} (hg : g ∈ detourGraphs)
  {descend : Graph → Exploration → Exploration × Decision} {s s' : Exploration}

include hg

/-- A rule is passed over where the label is another one. -/
theorem exploreRule_detourRules_of_ne {r : Rule} (hr : r ∈ detourRules)
    (hlabel : r.nodes.map RuleNode.label ≠ g.labels) (hs : s.isOver = false) :
    exploreRule (GrammarConfig.default.breaking false) limits descend g.view
      ⟨r, r.leftPattern, none⟩ s = (s, .proceed) :=
  exploreRule_of_nil (by rw [occurrences_detourRules g hg r hr, if_neg hlabel]) hs

theorem untilHalted_prepareDetour {l : List Rule} (hl : l ⊆ detourRules)
    (hlabel : ∀ r ∈ l, r.nodes.map RuleNode.label ≠ g.labels) (hs : s.isOver = false) :
    untilHalted (exploreRule (GrammarConfig.default.breaking false) limits descend g.view)
      (prepareDetour l) s = (s, .proceed) := by
  induction l with
  | nil => rfl
  | cons r l ih =>
    obtain ⟨hr, hl⟩ := List.cons_subset.mp hl
    obtain ⟨hne, hlabel⟩ := List.forall_mem_cons.mp hlabel
    exact (untilHalted_cons (exploreRule_detourRules_of_ne hg hr hne hs)).trans (ih hl hlabel)

/-- Where the label is that of a rule, the rule is applied. -/
theorem exploreRule_detourRules {r : Rule} (hr : r ∈ detourRules)
    (hlabel : r.nodes.map RuleNode.label = g.labels)
    (hresult : r.rewrite .default g.view [0] = .ok child)
    (hexpand : (expand limits descend (r.id.getD "") child s).1 = s') :
    exploreRule (GrammarConfig.default.breaking false) limits descend g.view
      ⟨r, r.leftPattern, none⟩ s = (s', if s'.isOver then .stop else .proceed) :=
  exploreRule_of_singleton (by rw [occurrences_detourRules g hg r hr, if_pos hlabel]) (by decide)
    hresult hexpand

theorem exploreRule_detourRules_proceed {r : Rule} (hr : r ∈ detourRules)
    (hlabel : r.nodes.map RuleNode.label = g.labels)
    (hresult : r.rewrite .default g.view [0] = .ok child)
    (hexpand : (expand limits descend (r.id.getD "") child s).1 = s') (hs : s'.isOver = false) :
    exploreRule (GrammarConfig.default.breaking false) limits descend g.view
      ⟨r, r.leftPattern, none⟩ s = (s', .proceed) := by
  rw [exploreRule_detourRules hg hr hlabel hresult hexpand, hs, if_neg Bool.false_ne_true]

/-- The search from a graph to which only one rule is applied. -/
theorem explore_detourRules_one {depth : Nat} (before after : List Rule) {r : Rule}
    (hrules : detourRules = before ++ r :: after) (hgoal : goal g = false)
    (hlabel : r.nodes.map RuleNode.label = g.labels)
    (hne : ∀ q ∈ before ++ after, q.nodes.map RuleNode.label ≠ g.labels)
    (hresult : r.rewrite .default g.view [0] = .ok child)
    (hexpand : (expand limits (explore (GrammarConfig.default.breaking false) limits goal
      (prepareDetour detourRules) depth) (r.id.getD "") child s).1 = s')
    (hs : s.isOver = false) :
    explore (GrammarConfig.default.breaking false) limits goal (prepareDetour detourRules)
      (depth + 1) g s = (s', if s'.isOver then .stop else .proceed) := by
  have hmem : ∀ q ∈ before ++ r :: after, q ∈ detourRules := fun q hq => hrules ▸ hq
  have hsplit : prepareDetour detourRules =
      prepareDetour before ++ (⟨r, r.leftPattern, none⟩ :: prepareDetour after) := by
    rw [hrules, prepareDetour, List.map_append, List.map_cons]
    rfl
  rw [explore, if_neg (by rw [hgoal]; decide)]
  dsimp only
  generalize explore (GrammarConfig.default.breaking false) limits goal (prepareDetour detourRules)
    depth = descend at hexpand ⊢
  rw [hsplit, untilHalted_append, untilHalted_prepareDetour hg
    (fun q hq => hmem q (List.mem_append_left _ hq))
    (fun q hq => hne q (List.mem_append_left _ hq)) hs]
  dsimp only
  cases hs' : s'.isOver with
  | true =>
    rw [untilHalted, exploreRule_detourRules hg (hmem r (by simp)) hlabel hresult hexpand, hs']
    rfl
  | false =>
    refine (untilHalted_cons (exploreRule_detourRules_proceed hg (hmem r (by simp)) hlabel hresult
      hexpand hs')).trans ?_
    exact untilHalted_prepareDetour hg
      (fun q hq => hmem q (List.mem_append_right _ (List.mem_cons_of_mem _ hq)))
      (fun q hq => hne q (List.mem_append_right _ hq)) hs'

/-- The search from a graph to which no rule is applied. -/
theorem explore_detourRules_none {depth : Nat} (hgoal : goal g = false)
    (hne : ∀ q ∈ detourRules, q.nodes.map RuleNode.label ≠ g.labels) (hs : s.isOver = false) :
    explore (GrammarConfig.default.breaking false) limits goal (prepareDetour detourRules)
      (depth + 1) g s = (s, .proceed) := by
  rw [explore, if_neg (by rw [hgoal]; decide)]
  exact untilHalted_prepareDetour hg (List.Subset.refl _) hne hs

end

/-- Graphs with different labels are new one after the other. -/
theorem exists_insert_single {visited : UniqueGraphs} {graphs : List Graph}
    (h : visited.Collects graphs) (label : String) (hnew : ∀ g ∈ graphs, ¬g.labels.Perm [label]) :
    ∃ visited', visited.insert (.single label) = (visited', true) ∧
      visited'.Collects (graphs ++ [.single label]) :=
  h.exists_insert_eq_true fun ⟨g, hg, hiso⟩ => hnew g hg hiso.labels_perm

/-- The search from the start, where `X` is met on the detour and then again. -/
theorem explore_detourRules_start {depth : Nat} {s : Exploration} {visited : UniqueGraphs}
    (hgoal : goal (.single "S") = false)
    (hexpand : (expand limits (explore (GrammarConfig.default.breaking false) limits goal
      (prepareDetour detourRules) depth) "detour" (.single "Y") (.initial (.single "S"))).1 = s)
    (hs : s.isOver = false) (hseen : s.visited.insert (.single "X") = (visited, false)) :
    explore (GrammarConfig.default.breaking false) limits goal (prepareDetour detourRules)
      (depth + 1) (.single "S") (.initial (.single "S")) = ({ s with visited }, .proceed) := by
  obtain ⟨hdetour, -, hdirect, -⟩ := rewrite_detourRules
  rw [explore, if_neg (by rw [hgoal]; decide)]
  refine (untilHalted_cons (exploreRule_detourRules_proceed (by decide) (by decide) rfl hdetour
    hexpand hs)).trans ?_
  refine (untilHalted_cons (exploreRule_detourRules_of_ne (by decide) (by decide) (by decide)
    hs)).trans ?_
  refine (untilHalted_cons (exploreRule_detourRules_proceed (by decide) (by decide) rfl hdirect
    (congrArg Prod.fst (expand_of_seen hseen)) hs)).trans ?_
  exact untilHalted_cons (exploreRule_detourRules_of_ne (by decide) (by decide) (by decide) hs)

/-- The search from the start meets `X` after two steps, and does not go on from there when it meets
it again after one step. -/
theorem searchRewrites_detourRules : searchRewrites (GrammarConfig.default.breaking false)
    ⟨2, 100000⟩ detourRules (.single "S") Graph.isFinished = .ok ⟨none, [], 2, false⟩ := by
  -- What is new among the graphs that are met.
  have hcollects : (UniqueGraphs.add UniqueGraphs.empty (.single "S")).Collects [.single "S"] :=
    UniqueGraphs.collects_empty.insert _
  obtain ⟨v₁, hv₁, hcollects⟩ := exists_insert_single hcollects "Y" (by decide)
  obtain ⟨v₂, hv₂, hcollects⟩ := exists_insert_single hcollects "X" (by decide)
  obtain ⟨v₃, hv₃⟩ := hcollects.exists_insert_eq_false (g := .single "X")
    ⟨_, List.mem_append_right _ (List.mem_singleton_self _), Graph.Isomorphic.refl _⟩
  let config := GrammarConfig.default.breaking false
  let limits : SearchLimits := ⟨2, 100000⟩
  -- The search from `X` at the bound, from `Y`, and from `S`.
  have hX : explore config limits Graph.isFinished (prepareDetour detourRules) 0 (.single "X")
      ⟨v₂, ["arrive", "detour"], 2, false, none, none⟩ =
      (⟨v₂, ["arrive", "detour"], 2, false, none, none⟩, .proceed) := by
    rw [explore, if_neg (by decide)]
  have hY : explore config limits Graph.isFinished (prepareDetour detourRules) 1 (.single "Y")
      ⟨v₁, ["detour"], 1, false, none, none⟩ =
      (⟨v₂, ["detour"], 2, false, none, none⟩, .proceed) :=
    Eq.trans (explore_detourRules_one (by decide) [_] _ rfl (by decide) rfl (by decide)
      rewrite_detourRules.2.1
      (congrArg Prod.fst (expand_of_new hv₂ (by decide : 1 < 100000) hX)) rfl) rfl
  have hS : explore config limits Graph.isFinished (prepareDetour detourRules) 2 (.single "S")
      (.initial (.single "S")) = (⟨v₃, [], 2, false, none, none⟩, .proceed) :=
    Eq.trans (explore_detourRules_start (by decide)
      (congrArg Prod.fst (expand_of_new hv₁ (by decide : 0 < 100000) hY)) rfl hv₃) rfl
  have hstate : searchState config limits detourRules (.single "S") Graph.isFinished =
      ⟨v₃, [], 2, false, none, none⟩ := by
    rw [searchState, readyRules_detourRules, hS]
  rw [searchRewrites_eq (by decide), hstate]
  rfl

/-! ### What a search cannot miss -/

/-- **What a depth-first search cannot miss.** The search records the graphs that it meets, each
with the number of steps on the path to it. If it tries all steps from the graphs that it met below
the bound on the depth, ends without a solution, and does not end for the number of graphs, then no
goal can be derived without going on from a graph that was met at the bound. -/
theorem searchRewrites_complete {config : GrammarConfig} {limits : SearchLimits} {rules : List Rule}
    {start : Graph} {goal : Graph → Bool} (hconfig : config.validate = .ok ())
    (hbreaking : config.search.symmetryBreaking = false) (hliteral : ∀ r ∈ rules, r.TakesLiterals)
    (hgoal : ∀ g h : Graph, g.Isomorphic h → goal g = goal h)
    (hcap : ∀ n, ∀ g ∈ (searchState config limits rules start goal).visited.graphs,
      Derives config.rewrite rules (fun _ => False) start n g → n < limits.maxDepth →
        ∀ r ∈ rules, r.isConsistent = true →
          {m | r.leftPattern.IsMatch g.view m}.ncard ≤ config.search.maxHits) :
    ∃ outcome met, searchRewrites config limits rules start goal = .ok outcome ∧
      searchWatching config limits rules start (.recording goal) [] = .ok (outcome, met) ∧
      (outcome.exhausted = false → outcome.solution.isSome = true ∨
        (met.map Prod.fst = (searchState config limits rules start goal).visited.graphs ∧
          met.length = outcome.expansions + 1 ∧ (start, 0) ∈ met ∧
          (∀ p ∈ met, Settles config limits rules start goal (met.map Prod.fst) p) ∧
          ∀ n g, Derives config.rewrite rules
            (fun g => ∃ k, (k, limits.maxDepth) ∈ met ∧ k.Isomorphic g) start n g →
              goal g = false)) := by
  refine ⟨_, _, searchRewrites_eq hconfig limits rules start goal,
    searchWatching_eq hconfig (Watcher.answers_recording goal) [], ?_⟩
  obtain ⟨decision, hgoes⟩ := goes_recordedState hconfig limits rules start goal
  rw [← toExploration_recordedState] at hcap ⊢
  rw [← recordedState]
  generalize recordedState config limits rules start goal = s at hcap hgoes ⊢
  cases hgoes with
  | solved hsolution => exact fun _ => .inl (by simp [Exploration.outcome, hsolution])
  | exhausted _ hexhausted =>
    intro hnot
    exact absurd (hexhausted.symm.trans hnot) (by decide)
  | passed hpasses hdone =>
    obtain ⟨hfst, hlength, hstart, hmet⟩ := settles_of_passes hbreaking hcap hpasses hdone
    refine fun _ => .inr ⟨hfst, hlength, hstart, fun p hp => (hmet p hp).2,
      fun n g hderives => ?_⟩
    obtain ⟨p, hp, hiso⟩ :=
      exists_met_of_derives hstart (fun p hp => (hmet p hp).2) hliteral hderives
    rw [← hgoal _ _ hiso]
    exact (hmet p hp).2.goal_eq

/-- The hypotheses hold for the detour, and the conclusion is not that the goal is found. -/
theorem searchRewrites_complete_detourRules :
    (GrammarConfig.default.breaking false).validate = .ok () ∧
    (∀ r ∈ detourRules, r.TakesLiterals) ∧
    (∀ g h : Graph, g.Isomorphic h → g.isFinished = h.isFinished) ∧
    (∀ n g, Derives .default detourRules (fun _ => False) (.single "S") n g → n < 2 →
      ∀ r ∈ detourRules, r.isConsistent = true →
        {m | r.leftPattern.IsMatch g.view m}.ncard ≤ GrammarConfig.default.search.maxHits) ∧
    ∃ outcome met, searchRewrites (GrammarConfig.default.breaking false) ⟨2, 100000⟩ detourRules
        (.single "S") Graph.isFinished = .ok outcome ∧
      searchWatching (GrammarConfig.default.breaking false) ⟨2, 100000⟩ detourRules (.single "S")
        (.recording Graph.isFinished) [] = .ok (outcome, met) ∧
      (outcome.exhausted = false → outcome.solution.isSome = true ∨
        (met.map Prod.fst = (searchState (GrammarConfig.default.breaking false) ⟨2, 100000⟩
            detourRules (.single "S") Graph.isFinished).visited.graphs ∧
          met.length = outcome.expansions + 1 ∧ (.single "S", 0) ∈ met ∧
          (∀ p ∈ met, Settles (GrammarConfig.default.breaking false) ⟨2, 100000⟩ detourRules
            (.single "S") Graph.isFinished (met.map Prod.fst) p) ∧
          ∀ n g, Derives .default detourRules
            (fun g => ∃ k, (k, 2) ∈ met ∧ k.Isomorphic g) (.single "S") n g →
              g.isFinished = false)) :=
  ⟨by decide, takesLiterals_detourRules, isFinished_eq_of_isomorphic,
    fun _ _ h _ r hr _ => ncard_isMatch_detourRules h r hr,
    searchRewrites_complete (by decide) rfl takesLiterals_detourRules isFinished_eq_of_isomorphic
      fun _ _ _ h _ r hr _ => ncard_isMatch_detourRules h r hr⟩

/-- **A goal within the bound can be missed.** Two steps lead to a graph with the label `G`, but the
search ends without a solution, and not because of the bound on the number of graphs. -/
theorem searchRewrites_misses_detourRules :
    (GrammarConfig.default.breaking false).validate = .ok () ∧
    (∀ r ∈ detourRules, r.TakesLiterals) ∧
    (∀ g h : Graph, g.Isomorphic h → g.isFinished = h.isFinished) ∧
    (∀ n g, Derives .default detourRules (fun _ => False) (.single "S") n g → n < 2 →
      ∀ r ∈ detourRules, r.isConsistent = true →
        {m | r.leftPattern.IsMatch g.view m}.ncard ≤ GrammarConfig.default.search.maxHits) ∧
    (∃ g, Derives .default detourRules (fun _ => False) (.single "S") 2 g ∧ g.isFinished = true) ∧
    searchRewrites (GrammarConfig.default.breaking false) ⟨2, 100000⟩ detourRules (.single "S")
      Graph.isFinished = .ok ⟨none, [], 2, false⟩ := by
  refine ⟨by decide, takesLiterals_detourRules, isFinished_eq_of_isomorphic,
    fun _ _ h _ r hr _ => ncard_isMatch_detourRules h r hr, ⟨.single "G", ?_, by decide⟩,
    searchRewrites_detourRules⟩
  obtain ⟨-, -, hdirect, hfinish⟩ := rewrite_detourRules
  exact .tail (.tail .refl not_false (rewrites_detourRules (by decide) (by decide) rfl hdirect))
    not_false (rewrites_detourRules (by decide) (by decide) rfl hfinish)

end GraphGrammar
