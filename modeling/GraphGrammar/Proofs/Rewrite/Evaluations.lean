import GraphGrammar.Proofs.Rewrite.DepthFirst

/-!
# How often a search evaluates its goal

What a goal with a memory remembers at the end shows on which graphs it was evaluated: on all
graphs that the search has seen, in the order in which it met them, except for one at which the
bound on the number of graphs was met. So the evaluations are counted by the search itself, and no
two of the graphs are isomorphic.

## Main definitions

* `GraphGrammar.Inquiry.Keeps` — how the state of a search with such a goal is kept.
* `GraphGrammar.Inquiry.Closes`, `GraphGrammar.Inquiry.Ends` — how a part of it may end.

## Main results

* `GraphGrammar.Inquiry.ends_exploreWatching` — the search from one graph.
* `GraphGrammar.searchRewrites_counts` — the counters and the bounds of a search.
-/

namespace GraphGrammar

section

variable {τ : Type} {config : GrammarConfig} {limits : SearchLimits} {rules : List Rule}
  {start : Graph} {ask : StatefulGoal τ}

/-! ### How the state of a search is kept -/

/-- The graphs on which the goal was evaluated: all that were seen, except for the one at which the
bound on the number of graphs was met. -/
def Exploration.evaluated (s : Exploration) : List Graph :=
  if s.exhausted then s.visited.graphs.dropLast else s.visited.graphs

namespace Inquiry

variable (config limits rules start ask) (memory : τ)

/-- How the state of a search is kept. The goal was evaluated on some graphs, one after the other,
and the search has seen these and some further ones. -/
structure Keeps (evaluated further : List Graph) (s : Inquiry τ) : Prop where
  /-- The goal remembers the graphs on which it was evaluated. -/
  memory_eq : s.memory = ask.remember evaluated memory
  /-- They are the first ones that were seen. -/
  graphs_eq : s.visited.graphs = evaluated ++ further
  /-- What was seen was collected one by one. -/
  collects : ∃ graphs, s.visited.Collects graphs
  /-- The start was seen first. -/
  head_eq : s.visited.graphs.head? = some start
  /-- What was seen can be derived within the bound on the depth. -/
  derives : ∀ h ∈ s.visited.graphs, ∃ n ≤ limits.maxDepth,
    Derives config.rewrite rules (fun _ => False) start n h
  /-- The number of graphs from which the search went on is within the bound. -/
  expansions_le : s.expansions ≤ limits.maxExpansions
  /-- The path goes through such graphs. -/
  path_le : s.path.length ≤ s.expansions

/-- The state of a search that is not over, between two graphs, with a path of length `n`. The goal
was evaluated on some graphs that are known. -/
structure Pauses (n : Nat) (known : List Graph) (s : Inquiry τ) : Prop where
  /-- The search goes on. -/
  isOver_eq : s.isOver = false
  /-- The length of the path. -/
  length_eq : s.path.length = n
  /-- All graphs that were seen were counted, and the goal was evaluated on them. -/
  keeps : ∃ evaluated, s.Keeps config limits rules start ask memory evaluated [] ∧
    evaluated.length = s.expansions + 1 ∧ known ⊆ evaluated

/-- The state of a search that comes to a new graph. -/
structure Enters (n : Nat) (known : List Graph) (g : Graph) (s : Inquiry τ) : Prop where
  /-- The search goes on. -/
  isOver_eq : s.isOver = false
  /-- The length of the path. -/
  length_eq : s.path.length = n
  /-- The goal was evaluated on all graphs that were seen, except for the new one. -/
  keeps : ∃ evaluated, s.Keeps config limits rules start ask memory evaluated [g] ∧
    evaluated.length = s.expansions ∧ known ⊆ evaluated

/-- The state of a search that is over. -/
inductive Closes : Inquiry τ → Prop
  /-- There is a solution. -/
  | solved {s : Inquiry τ} {evaluated : List Graph}
    (keeps : s.Keeps config limits rules start ask memory evaluated [])
    (length_eq : evaluated.length = s.expansions + 1) (solution_eq : s.solution.isSome = true)
    (exhausted_eq : s.exhausted = false) (length_le : s.path.length ≤ limits.maxDepth) : Closes s
  /-- The bound on the number of graphs was met at a graph that is new. -/
  | exhausted {s : Inquiry τ} {evaluated : List Graph} {extra : Graph}
    (keeps : s.Keeps config limits rules start ask memory evaluated [extra])
    (length_eq : evaluated.length = s.expansions + 1) (solution_eq : s.solution = none)
    (exhausted_eq : s.exhausted = true) (expansions_eq : s.expansions = limits.maxExpansions)
    (tries : ∃ g ∈ evaluated, Tries config rules g extra) : Closes s

/-- How a part of a search may end that begins with a path of length `n`. -/
inductive Ends (n : Nat) (known : List Graph) : Inquiry τ × Decision → Prop
  /-- The search is over. -/
  | closed {s : Inquiry τ} (closes : s.Closes config limits rules start ask memory) :
    Ends n known (s, .stop)
  /-- It goes on, with a path of the same length. -/
  | passed {s : Inquiry τ} (pauses : s.Pauses config limits rules start ask memory n known) :
    Ends n known (s, .proceed)

end Inquiry

end

section

variable {τ : Type} {config : GrammarConfig} {limits : SearchLimits} {rules : List Rule}
  {start : Graph} {goal : Graph → Bool} {ask : StatefulGoal τ} {memory : τ}

namespace Inquiry

variable {s s' : Inquiry τ} {n : Nat} {known known' evaluated further : List Graph}
  {g child : Graph}

theorem Keeps.pairwise (h : s.Keeps config limits rules start ask memory evaluated further) :
    (evaluated ++ further).Pairwise fun g k => ¬g.Isomorphic k := by
  obtain ⟨graphs, hcollects⟩ := h.collects
  rw [← h.graphs_eq]
  exact hcollects.pairwise

/-- What else the state has does not matter. -/
theorem Keeps.congr (h : s.Keeps config limits rules start ask memory evaluated further)
    (hmemory : s'.memory = s.memory) (hvisited : s'.visited = s.visited)
    (hexpansions : s'.expansions ≤ limits.maxExpansions) (hpath : s'.path.length ≤ s'.expansions) :
    s'.Keeps config limits rules start ask memory evaluated further :=
  ⟨hmemory.trans h.memory_eq, hvisited ▸ h.graphs_eq, hvisited ▸ h.collects, hvisited ▸ h.head_eq,
    hvisited ▸ h.derives, hexpansions, hpath⟩

theorem Keeps.head_evaluated (h : s.Keeps config limits rules start ask memory evaluated further)
    (hlength : evaluated.length = s.expansions + 1) : evaluated.head? = some start := by
  have hhead := h.head_eq
  rw [h.graphs_eq] at hhead
  cases evaluated with
  | nil => cases hlength
  | cons g graphs => exact hhead

theorem Pauses.mono (h : s.Pauses config limits rules start ask memory n known)
    (hsub : known' ⊆ known) : s.Pauses config limits rules start ask memory n known' := by
  obtain ⟨evaluated, hkeeps, hlength, hknown⟩ := h.keeps
  exact ⟨h.isOver_eq, h.length_eq, evaluated, hkeeps, hlength, List.Subset.trans hsub hknown⟩

theorem Closes.isOver_eq (h : s.Closes config limits rules start ask memory) :
    s.isOver = true := by
  cases h with
  | solved _ _ hsolution => simp [Exploration.isOver, hsolution]
  | exhausted _ _ _ hexhausted => simp [Exploration.isOver, hexhausted]

theorem Ends.mono {next : Inquiry τ × Decision}
    (h : Ends config limits rules start ask memory n known next) (hsub : known' ⊆ known) :
    Ends config limits rules start ask memory n known' next := by
  cases h with
  | closed hcloses => exact .closed hcloses
  | passed hpauses => exact .passed (hpauses.mono hsub)

/-- The decision can be read off the state. -/
theorem Ends.of_isOver {next : Inquiry τ × Decision}
    (h : Ends config limits rules start ask memory n known next) :
    Ends config limits rules start ask memory n known
      (next.1, if next.1.isOver then .stop else .proceed) := by
  cases h with
  | closed hcloses =>
    rw [if_pos hcloses.isOver_eq]
    exact .closed hcloses
  | passed hpauses =>
    rw [if_neg (by simp [hpauses.isOver_eq])]
    exact .passed hpauses

/-- **A loop** whose steps end in one of these ways ends in one of them. -/
theorem ends_untilHalted {α : Type} {f : α → Inquiry τ → Inquiry τ × Decision} {l : List α}
    (h : ∀ a ∈ l, ∀ s : Inquiry τ, s.Pauses config limits rules start ask memory n known →
      Ends config limits rules start ask memory n known (f a s))
    (hs : s.Pauses config limits rules start ask memory n known) :
    Ends config limits rules start ask memory n known (untilHalted f l s) := by
  induction l generalizing s with
  | nil => exact .passed hs
  | cons a l ih =>
    have hfirst := h a (List.mem_cons_self ..) s hs
    rw [untilHalted]
    generalize f a s = next at hfirst ⊢
    cases hfirst with
    | closed hcloses => exact .closed hcloses
    | passed hpauses => exact ih (fun b hb => h b (List.mem_cons_of_mem _ hb)) hpauses

/-! ### One level after the other -/

/-- A graph that was seen before changes nothing. -/
theorem Pauses.insert_of_seen {visited : UniqueGraphs}
    (h : s.Pauses config limits rules start ask memory n known)
    (hinsert : s.visited.insert child = (visited, false)) :
    Pauses config limits rules start ask memory n known { s with visited } := by
  obtain ⟨evaluated, hkeeps, hlength, hknown⟩ := h.keeps
  obtain ⟨graphs, hcollects⟩ := hkeeps.collects
  have hgraphs := (UniqueGraphs.represented_of_insert_eq_false hinsert).1
  have hnew := hcollects.insert child
  rw [hinsert] at hnew
  exact ⟨h.isOver_eq, h.length_eq, evaluated, ⟨hkeeps.memory_eq, hgraphs.trans hkeeps.graphs_eq,
    ⟨_, hnew⟩, hgraphs ▸ hkeeps.head_eq, hgraphs ▸ hkeeps.derives, hkeeps.expansions_le,
    hkeeps.path_le⟩, hlength, hknown⟩

/-- A new graph is one that was seen and on which the goal was not evaluated. -/
theorem Keeps.insert_of_new {visited : UniqueGraphs}
    (h : s.Keeps config limits rules start ask memory evaluated [])
    (hinsert : s.visited.insert child = (visited, true))
    (hchild : ∃ n ≤ limits.maxDepth, Derives config.rewrite rules (fun _ => False) start n child) :
    Keeps config limits rules start ask memory evaluated [child] { s with visited } := by
  obtain ⟨graphs, hcollects⟩ := h.collects
  have hgraphs := UniqueGraphs.graphs_of_insert_eq_true hinsert
  have hnew := hcollects.insert child
  rw [hinsert] at hnew
  refine ⟨h.memory_eq, ?_, ⟨_, hnew⟩, ?_, ?_, h.expansions_le, h.path_le⟩
  · rw [hgraphs, h.graphs_eq, List.append_nil]
  · rw [hgraphs, List.head?_append, h.head_eq]
    rfl
  · intro k hk
    rw [hgraphs] at hk
    rcases List.mem_append.mp hk with hk | hk
    · exact h.derives k hk
    · rwa [List.mem_singleton.mp hk]

/-- The goal is evaluated on the graph to which the search comes. -/
theorem Enters.pauses (h : s.Enters config limits rules start ask memory n known g) :
    Pauses config limits rules start ask memory n (g :: known)
      { s with memory := (ask g s.memory).2 } := by
  obtain ⟨evaluated, hkeeps, hlength, hknown⟩ := h.keeps
  refine ⟨h.isOver_eq, h.length_eq, evaluated ++ [g], ⟨?_, ?_, hkeeps.collects, hkeeps.head_eq,
    hkeeps.derives, hkeeps.expansions_le, hkeeps.path_le⟩, ?_, ?_⟩
  · rw [StatefulGoal.remember_concat, ← hkeeps.memory_eq]
  · rw [List.append_nil]
    exact hkeeps.graphs_eq
  · rw [List.length_append, List.length_singleton, hlength]
  · exact List.cons_subset.mpr ⟨List.mem_append_right _ (List.mem_singleton_self g),
      List.Subset.trans hknown (List.subset_append_left _ _)⟩

/-- The search ends at a graph that satisfies the goal. -/
theorem Pauses.closes (h : s.Pauses config limits rules start ask memory n known)
    (hn : n ≤ limits.maxDepth) (g : Graph) :
    Closes config limits rules start ask memory { s with solution := some g } := by
  obtain ⟨evaluated, hkeeps, hlength, -⟩ := h.keeps
  have hnot := Exploration.isOver_eq_false_iff.mp h.isOver_eq
  exact .solved (hkeeps.congr rfl rfl hkeeps.expansions_le hkeeps.path_le) hlength rfl hnot.2.1
    (h.length_eq ▸ hn)

/-- **Going on with the result of a step.** -/
theorem ends_expandAsking {descend : Graph → Inquiry τ → Inquiry τ × Decision} {id : String}
    (hchild : Derives config.rewrite rules (fun _ => False) start (n + 1) child)
    (hn : n + 1 ≤ limits.maxDepth) (htries : Tries config rules g child) (hg : g ∈ known)
    (hdescend : ∀ s : Inquiry τ, s.Enters config limits rules start ask memory (n + 1) known child →
      Ends config limits rules start ask memory (n + 1) known (descend child s))
    (hs : s.Pauses config limits rules start ask memory n known) :
    Ends config limits rules start ask memory n known
      (expandAsking limits descend id child s) := by
  rw [expandAsking]
  rcases hinsert : s.visited.insert child with ⟨visited, _ | _⟩
  · exact .passed (hs.insert_of_seen hinsert)
  obtain ⟨evaluated, hkeeps, hlength, hknown⟩ := hs.keeps
  have hnew := hkeeps.insert_of_new hinsert ⟨n + 1, hn, hchild⟩
  dsimp only
  split
  · next hmax =>
    have hnot := Exploration.isOver_eq_false_iff.mp hs.isOver_eq
    exact .closed (.exhausted (hnew.congr rfl rfl hnew.expansions_le hnew.path_le) hlength hnot.1
      rfl (Nat.le_antisymm hkeeps.expansions_le hmax) ⟨g, hknown hg, htries⟩)
  · next hmax =>
    have hdown := hdescend { s with visited, expansions := s.expansions + 1, path := id :: s.path }
      ⟨hs.isOver_eq, congrArg (· + 1) hs.length_eq, evaluated, hnew.congr rfl rfl
        (Nat.not_le.mp hmax) (Nat.succ_le_succ hkeeps.path_le), hlength, hknown⟩
    generalize descend child _ = next at hdown ⊢
    cases hdown with
    | closed hcloses => exact .closed hcloses
    | @passed s' hpauses =>
      obtain ⟨evaluated, hkeeps, hlength, hknown⟩ := hpauses.keeps
      have htail : s'.path.tail.length = n := by
        rw [List.length_tail, hpauses.length_eq, Nat.add_sub_cancel]
      have hle : s'.path.tail.length ≤ s'.expansions := by
        rw [List.length_tail]
        exact (Nat.sub_le _ _).trans hkeeps.path_le
      exact .passed ⟨hpauses.isOver_eq, htail, evaluated,
        hkeeps.congr rfl rfl hkeeps.expansions_le hle, hlength, hknown⟩

/-- **Applying one rule** at the first matches up to the cap. -/
theorem ends_exploreRuleAsking (hconfig : config.validate = .ok ()) {p : ReadyRule}
    (hp : p ∈ readyRules config.search rules)
    {descend : Graph → Inquiry τ → Inquiry τ × Decision}
    (hderives : Derives config.rewrite rules (fun _ => False) start n g)
    (hn : n + 1 ≤ limits.maxDepth) (hg : g ∈ known)
    (hdescend : ∀ child, Derives config.rewrite rules (fun _ => False) start (n + 1) child →
      ∀ s : Inquiry τ, s.Enters config limits rules start ask memory (n + 1) known child →
        Ends config limits rules start ask memory (n + 1) known (descend child s))
    (hs : s.Pauses config limits rules start ask memory n known) :
    Ends config limits rules start ask memory n known
      (exploreRuleAsking config limits descend g.view p s) := by
  rw [exploreRuleAsking, searchOne_state_eq_take]
  refine Ends.of_isOver (ends_untilHalted (fun hit hhit s hs => ?_) hs)
  rw [Pattern.hits, ← List.map_take] at hhit
  obtain ⟨m, hm, rfl⟩ := List.mem_map.mp hhit
  obtain ⟨child, hresult, hstep⟩ := exists_rewritesBy hconfig hp (List.mem_of_mem_take hm)
  have hchild : Derives config.rewrite rules (fun _ => False) start (n + 1) child :=
    .tail hderives not_false hstep.rewrites
  rw [expandHitAsking]
  simp only [hresult]
  exact ends_expandAsking hchild hn ⟨p, hp, m, hm, hresult⟩ hg (hdescend child hchild) hs

/-- **The search from one graph.** -/
theorem ends_exploreWatching (hconfig : config.validate = .ok ()) {depth : Nat}
    (hderives : Derives config.rewrite rules (fun _ => False) start n g)
    (hn : n + depth = limits.maxDepth)
    (hs : s.Enters config limits rules start ask memory n known g) :
    Ends config limits rules start ask memory n known
      (exploreWatching config limits ask.watcher (readyRules config.search rules) depth g s) := by
  have hle : n ≤ limits.maxDepth := hn ▸ Nat.le_add_right n depth
  have hpauses := hs.pauses
  induction depth generalizing n known g s with
  | zero =>
    rw [exploreWatching, StatefulGoal.watcher]
    generalize ask g s.memory = answer at hpauses ⊢
    rcases answer with ⟨_ | _, remembered⟩
    · exact .passed (hpauses.mono (List.subset_cons_self g known))
    · exact .closed (hpauses.closes hle g)
  | succ depth ih =>
    rw [exploreWatching, StatefulGoal.watcher]
    generalize ask g s.memory = answer at hpauses ⊢
    rcases answer with ⟨_ | _, remembered⟩
    · refine Ends.mono (ends_untilHalted (fun p hp s hs => ?_) hpauses)
        (List.subset_cons_self g known)
      have hlt : n + 1 ≤ limits.maxDepth := by omega
      exact ends_exploreRuleAsking hconfig hp hderives hlt (List.mem_cons_self ..)
        (fun child hchild s hs => ih hchild (by omega) hs hlt hs.pauses) hs
    · exact .closed (hpauses.closes hle g)

/-! ### The end of a search -/

theorem Keeps.evaluated_eq (h : s.Keeps config limits rules start ask memory evaluated [])
    (hs : s.exhausted = false) : s.evaluated = evaluated := by
  rw [Exploration.evaluated, hs, if_neg Bool.false_ne_true, h.graphs_eq, List.append_nil]

theorem Keeps.evaluated_eq_of_exhausted {extra : Graph}
    (h : s.Keeps config limits rules start ask memory evaluated [extra])
    (hs : s.exhausted = true) : s.evaluated = evaluated := by
  rw [Exploration.evaluated, if_pos hs, h.graphs_eq, List.dropLast_concat]

namespace Ends

variable {decision : Decision}
  (h : Ends config limits rules start ask memory n known (s, decision))

include h

/-- The goal was evaluated on what was seen, and the evaluations are counted. -/
theorem keeps : ∃ further, s.Keeps config limits rules start ask memory s.evaluated further ∧
    s.evaluated.length = s.expansions + 1 := by
  cases h with
  | closed hcloses =>
    cases hcloses with
    | solved hkeeps hlength _ hexhausted =>
      have hevaluated := hkeeps.evaluated_eq hexhausted
      exact ⟨[], hevaluated.symm ▸ hkeeps, hevaluated.symm ▸ hlength⟩
    | @exhausted _ extra hkeeps hlength _ hexhausted =>
      have hevaluated := hkeeps.evaluated_eq_of_exhausted hexhausted
      exact ⟨[extra], hevaluated.symm ▸ hkeeps, hevaluated.symm ▸ hlength⟩
  | passed hpauses =>
    obtain ⟨evaluated, hkeeps, hlength, -⟩ := hpauses.keeps
    have hnot := Exploration.isOver_eq_false_iff.mp hpauses.isOver_eq
    have hevaluated := hkeeps.evaluated_eq hnot.2.1
    exact ⟨[], hevaluated.symm ▸ hkeeps, hevaluated.symm ▸ hlength⟩

/-- Only a solution has a path. -/
theorem length_path_le : s.outcome.path.length ≤ min limits.maxDepth s.expansions := by
  have hnone (hsolution : s.solution = none) :
      s.outcome.path.length ≤ min limits.maxDepth s.expansions := by
    rw [Exploration.outcome, hsolution]
    exact Nat.zero_le _
  cases h with
  | closed hcloses =>
    cases hcloses with
    | solved hkeeps _ hsolution _ hpath =>
      dsimp only [Exploration.outcome]
      rw [if_pos hsolution, List.length_reverse]
      exact Nat.le_min.mpr ⟨hpath, hkeeps.path_le⟩
    | exhausted _ _ hsolution => exact hnone hsolution
  | passed hpauses => exact hnone (Exploration.isOver_eq_false_iff.mp hpauses.isOver_eq).1

/-- At the bound on the number of graphs, one more graph had been derived. -/
theorem of_exhausted (hs : s.exhausted = true) : s.solution = none ∧
    s.expansions = limits.maxExpansions ∧
    ∃ extra, s.visited.graphs = s.evaluated ++ [extra] ∧
      (∃ g ∈ s.evaluated, Tries config rules g extra) ∧
      (∃ k ≤ limits.maxDepth, Derives config.rewrite rules (fun _ => False) start k extra) ∧
      ∀ g ∈ s.evaluated, ¬g.Isomorphic extra := by
  cases h with
  | closed hcloses =>
    cases hcloses with
    | solved _ _ _ hexhausted => cases hexhausted.symm.trans hs
    | @exhausted _ extra hkeeps _ hsolution _ hexpansions htries =>
      rw [hkeeps.evaluated_eq_of_exhausted hs]
      have hextra : extra ∈ s.visited.graphs := by
        rw [hkeeps.graphs_eq]
        exact List.mem_append_right _ (List.mem_singleton_self extra)
      have hnew := (List.pairwise_append.mp hkeeps.pairwise).2.2
      exact ⟨hsolution, hexpansions, extra, hkeeps.graphs_eq, htries, hkeeps.derives extra hextra,
        fun g hg => hnew g hg extra (List.mem_singleton_self extra)⟩
  | passed hpauses =>
    cases (Exploration.isOver_eq_false_iff.mp hpauses.isOver_eq).2.1.symm.trans hs

end Ends

end Inquiry

/-! ### The whole search -/

theorem Inquiry.enters_initial : (Inquiry.initial start memory).Enters config limits rules start ask
    memory 0 [] start where
  isOver_eq := rfl
  length_eq := rfl
  keeps := by
    have hgraphs : (Inquiry.initial start memory).visited.graphs = [start] := graphs_add_empty start
    refine ⟨[], ⟨rfl, hgraphs, ⟨_, UniqueGraphs.collects_empty.insert start⟩, ?_, ?_,
      Nat.zero_le _, Nat.le_refl _⟩, rfl, List.Subset.refl _⟩
    · rw [hgraphs]
      rfl
    · rw [hgraphs]
      intro h hh
      rw [List.mem_singleton.mp hh]
      exact ⟨0, Nat.zero_le _, .refl⟩

/-- How the search from the start may end. -/
theorem ends_watchedState (hconfig : config.validate = .ok ()) (limits : SearchLimits)
    (rules : List Rule) (start : Graph) (ask : StatefulGoal τ) (memory : τ) :
    ∃ decision, Inquiry.Ends config limits rules start ask memory 0 []
      (watchedState config limits rules start ask.watcher memory, decision) :=
  ⟨_, Inquiry.ends_exploreWatching hconfig .refl (Nat.zero_add _) Inquiry.enters_initial⟩

/-- **The counters and the bounds of a search.** -/
theorem searchRewrites_counts (hconfig : config.validate = .ok ()) (limits : SearchLimits)
    (rules : List Rule) (start : Graph) (goal : Graph → Bool) :
    ∃ outcome evaluated, searchRewrites config limits rules start goal = .ok outcome ∧
      (∀ (τ : Type) (ask : StatefulGoal τ) (memory : τ), ask.Answers goal →
        searchAsking config limits rules start ask memory =
          .ok (outcome, ask.remember evaluated memory)) ∧
      evaluated.length = outcome.expansions + 1 ∧ evaluated.head? = some start ∧
      (evaluated.Pairwise fun g h => ¬g.Isomorphic h) ∧
      outcome.expansions ≤ limits.maxExpansions ∧
      outcome.path.length ≤ min limits.maxDepth outcome.expansions ∧
      (outcome.exhausted = true → outcome.solution = none ∧
        outcome.expansions = limits.maxExpansions ∧
        ∃ extra, (searchState config limits rules start goal).visited.graphs =
            evaluated ++ [extra] ∧
          (∃ g ∈ evaluated, Tries config rules g extra) ∧
          (∃ n ≤ limits.maxDepth, Derives config.rewrite rules (fun _ => False) start n extra) ∧
          ∀ g ∈ evaluated, ¬g.Isomorphic extra) := by
  have hstate {τ : Type} {ask : StatefulGoal τ} (hask : ask.Answers goal) (memory : τ) :
      (watchedState config limits rules start ask.watcher memory).toExploration =
        searchState config limits rules start goal := toExploration_watchedState hask.watcher memory
  refine ⟨_, (searchState config limits rules start goal).evaluated,
    searchRewrites_eq hconfig limits rules start goal, fun τ ask memory hask => ?_, ?_⟩
  · obtain ⟨decision, hends⟩ := ends_watchedState hconfig limits rules start ask memory
    obtain ⟨further, hkeeps, -⟩ := hends.keeps
    rw [searchAsking, searchWatching_eq hconfig hask.watcher memory, hkeeps.memory_eq,
      hstate hask memory]
  · have hlisting := StatefulGoal.answers_listing goal
    obtain ⟨decision, hends⟩ :=
      ends_watchedState hconfig limits rules start (StatefulGoal.listing goal) []
    obtain ⟨further, hkeeps, hlength⟩ := hends.keeps
    have hhead := hkeeps.head_evaluated hlength
    have hpairwise := (List.pairwise_append.mp hkeeps.pairwise).1
    have hexpansions := hkeeps.expansions_le
    have hpath := hends.length_path_le
    have hexhausted := hends.of_exhausted
    rw [hstate hlisting []] at hlength hhead hpairwise hexpansions hpath hexhausted
    exact ⟨hlength, hhead, hpairwise, hexpansions, hpath, hexhausted⟩

end

/-- The search from `Y` that may go on from one graph only: it goes on from `X`, and ends at `G`. -/
theorem searchState_detourRules_bounded : ∃ visited,
    visited.graphs = [.single "Y", .single "X", .single "G"] ∧
    searchState (GrammarConfig.default.breaking false) ⟨5, 1⟩ detourRules (.single "Y")
      Graph.isFinished = ⟨visited, ["arrive"], 1, true, none, none⟩ := by
  have hcollects : (UniqueGraphs.add UniqueGraphs.empty (.single "Y")).Collects [.single "Y"] :=
    UniqueGraphs.collects_empty.insert _
  obtain ⟨v₁, hv₁, hcollects⟩ := exists_insert_single hcollects "X" (by decide)
  obtain ⟨v₂, hv₂, -⟩ := exists_insert_single hcollects "G" (by decide)
  obtain ⟨-, harrive, -, hfinish⟩ := rewrite_detourRules
  let config := GrammarConfig.default.breaking false
  let limits : SearchLimits := ⟨5, 1⟩
  have hX : explore config limits Graph.isFinished (prepareDetour detourRules) 4 (.single "X")
      ⟨v₁, ["arrive"], 1, false, none, none⟩ =
      (⟨v₂, ["arrive"], 1, true, none, none⟩, .stop) :=
    Eq.trans (explore_detourRules_one (by decide) [_, _, _] _ rfl (by decide) rfl (by decide)
      hfinish (congrArg Prod.fst (expand_of_new_of_le hv₂ (by decide : 1 ≤ 1))) rfl) rfl
  have hY : explore config limits Graph.isFinished (prepareDetour detourRules) 5 (.single "Y")
      (.initial (.single "Y")) = (⟨v₂, ["arrive"], 1, true, none, none⟩, .stop) :=
    Eq.trans (explore_detourRules_one (by decide) [_] _ rfl (by decide) rfl (by decide) harrive
      (congrArg Prod.fst (expand_of_new_of_stop hv₁ (by decide : 0 < 1) hX)) rfl) rfl
  refine ⟨v₂, ?_, by rw [searchState, readyRules_detourRules, hY]⟩
  rw [UniqueGraphs.graphs_of_insert_eq_true hv₂, UniqueGraphs.graphs_of_insert_eq_true hv₁,
    graphs_add_empty]
  rfl

/-- A goal that lists the graphs on which it is evaluated lists `Y` and `X`. The bound is met at
`G`, which would have satisfied it. -/
theorem searchRewrites_counts_detourRules :
    (GrammarConfig.default.breaking false).validate = .ok () ∧
    searchRewrites (GrammarConfig.default.breaking false) ⟨5, 1⟩ detourRules (.single "Y")
      Graph.isFinished = .ok ⟨none, [], 1, true⟩ ∧
    searchAsking (GrammarConfig.default.breaking false) ⟨5, 1⟩ detourRules (.single "Y")
      (StatefulGoal.listing Graph.isFinished) [] =
        .ok (⟨none, [], 1, true⟩, [.single "Y", .single "X"]) ∧
    (∃ g ∈ [Graph.single "Y", .single "X"],
      Tries (GrammarConfig.default.breaking false) detourRules g (.single "G")) ∧
    ∀ g ∈ [Graph.single "Y", .single "X"], ¬g.Isomorphic (.single "G") := by
  have hconfig : (GrammarConfig.default.breaking false).validate = .ok () := rfl
  obtain ⟨visited, hgraphs, hstate⟩ := searchState_detourRules_bounded
  have hfound : searchRewrites (GrammarConfig.default.breaking false) ⟨5, 1⟩ detourRules
      (.single "Y") Graph.isFinished = .ok ⟨none, [], 1, true⟩ := by
    rw [searchRewrites_eq hconfig, hstate]
    rfl
  obtain ⟨outcome, evaluated, hsearch, hasking, -, -, -, -, -, hexhausted⟩ :=
    searchRewrites_counts hconfig ⟨5, 1⟩ detourRules (.single "Y") Graph.isFinished
  obtain rfl := Except.ok.inj (hfound.symm.trans hsearch)
  obtain ⟨-, -, extra, hseen, htries, -, hnew⟩ := hexhausted rfl
  rw [hstate, hgraphs] at hseen
  have hlists : [Graph.single "Y", .single "X"] ++ [.single "G"] = evaluated ++ [extra] := hseen
  obtain ⟨rfl, rfl⟩ := List.append_singleton_inj.mp hlists
  exact ⟨hconfig, hfound, hasking _ _ [] (StatefulGoal.answers_listing _), htries, hnew⟩

end GraphGrammar
