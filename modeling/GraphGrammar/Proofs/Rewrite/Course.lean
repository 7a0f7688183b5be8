import GraphGrammar.Proofs.Rewrite.Asking
import GraphGrammar.Proofs.Rewrite.Collector
import GraphGrammar.Proofs.Rewrite.Derivation

/-!
# The course of a depth-first search

A part of a search begins at a graph, in any state that is not over. It ends in one of three ways:
with a solution, to which the ids that were put on the path lead from that graph; at the bound on
the number of graphs; or it passes, with the path as it was. A part that passes has met graphs, is
done with them, and has tried all steps from those that were not met at the bound on the depth. No
step can fail, with any configuration that is valid.

The search is followed with a goal that records every graph on which it is evaluated, with the
number of steps on the path to it. So the numbers of steps of the graphs that were met are the
recorded ones.

## Main definitions

* `GraphGrammar.Tries` — the steps that a search tries.
* `GraphGrammar.Searched` — what holds of a graph with which a part of a search is done.
* `GraphGrammar.Inquiry.Goes` — how a part of a search may end.

## Main results

* `GraphGrammar.Inquiry.goes_exploreWatching` — the search from one graph.
* `GraphGrammar.Rewrites.tries` — when every step is tried.
-/

namespace GraphGrammar

/-- The state of a search whose goal records the graphs and the numbers of steps to them. -/
abbrev Recorded : Type := Inquiry (List (Graph × Nat))

/-- The state after the goal was evaluated on a graph. -/
def Inquiry.meet (s : Recorded) (g : Graph) : Recorded :=
  { s with memory := s.memory ++ [(g, s.path.length)] }

@[simp]
theorem Inquiry.meet_toExploration (s : Recorded) (g : Graph) :
    (s.meet g).toExploration = s.toExploration := rfl

section

variable (config : GrammarConfig) (rules : List Rule) (goal : Graph → Bool) (depth : Nat)
  (g : Graph)

/-- A step that a search tries: at one of the first matches of a prepared rule, up to the cap on the
number of hits. -/
def Tries (h : Graph) : Prop :=
  ∃ p ∈ readyRules config.search rules,
    ∃ m ∈ (p.left.occurrences p.order g.view).take config.search.maxHits,
      p.rule.rewrite config.rewrite g.view m = .ok h

/-- What holds of a graph and the ids that lead to it, when the search from `g` by at most `depth`
steps is done with it and has met some graphs. -/
structure Searched (graphs : List Graph) (p : Graph × List String) : Prop where
  /-- The ids lead to it. -/
  leads : Leads config.rewrite rules g p.2 p.1
  /-- Their number is within the bound. -/
  length_le : p.2.length ≤ depth
  /-- It does not satisfy the goal. -/
  goal_eq : goal p.1 = false
  /-- What the search tries from it was met, unless it was met at the bound. -/
  closed : p.2.length < depth → ∀ h, Tries config rules p.1 h → Represented graphs h

/-- What a part of a search that passes makes of a state: the path is the same, and the graphs that
it met are those that are new and those that are recorded. -/
structure Inquiry.Passes (s : Recorded) (met : List (Graph × List String))
    (s' : Recorded) : Prop where
  /-- The search is not over. -/
  isOver_eq : s'.isOver = false
  /-- The path is as it was. -/
  path_eq : s'.path = s.path
  /-- The graphs that were met were added. -/
  graphs_eq : s'.visited.graphs = s.visited.graphs ++ met.map Prod.fst
  /-- They were recorded with the steps to them. -/
  memory_eq : s'.memory = s.memory ++ met.map fun p => (p.1, s.path.length + p.2.length)
  /-- They were collected one by one. -/
  collects : (∃ graphs, s.visited.Collects graphs) → ∃ graphs, s'.visited.Collects graphs
  /-- They are counted. -/
  expansions_eq : s'.expansions = s.expansions + met.length
  /-- The search is done with them. -/
  searched : ∀ p ∈ met, Searched config rules goal depth g s'.visited.graphs p
  /-- All graphs on the way to one of them were met. -/
  length_le : ∀ p ∈ met, p.2.length ≤ met.length

/-- How a part of a search from `g` may end. -/
inductive Inquiry.Goes (s : Recorded) (done : List Graph → Prop) :
    Recorded × Decision → Prop
  /-- With a solution. -/
  | solved {s' : Recorded} {h : Graph} {ids : List String}
    (solution_eq : s'.solution = some h) (fault_eq : s'.fault = none) (goal_eq : goal h = true)
    (leads : Leads config.rewrite rules g ids h) (length_le : ids.length ≤ depth)
    (path_eq : s'.path = ids.reverse ++ s.path) : Goes s done (s', .stop)
  /-- At the bound on the number of graphs. -/
  | exhausted {s' : Recorded} (solution_eq : s'.solution = none)
    (exhausted_eq : s'.exhausted = true) (fault_eq : s'.fault = none) : Goes s done (s', .stop)
  /-- Neither of these, and a claim on the graphs seen so far is true. -/
  | passed {s' : Recorded} {met : List (Graph × List String)}
    (passes : s.Passes config rules goal depth g met s') (holds : done s'.visited.graphs) :
    Goes s done (s', .proceed)

end

section

variable {config : GrammarConfig} {limits : SearchLimits} {rules : List Rule} {goal : Graph → Bool}
  {depth : Nat} {g h : Graph}

/-! ### Steps that are tried -/

/-- **Every step is tried** if symmetries are not broken and the cap is not exceeded. -/
theorem Rewrites.tries (hstep : Rewrites config.rewrite rules g h)
    (hbreaking : config.search.symmetryBreaking = false)
    (hcap : ∀ r ∈ rules, r.isConsistent = true →
      {m | r.leftPattern.IsMatch g.view m}.ncard ≤ config.search.maxHits) :
    Tries config rules g h := by
  obtain ⟨r, hr, m, hm, happly⟩ := hstep
  obtain ⟨hconsistent, -, hresult⟩ := applyRule_eq_ok_iff.mp happly
  have hp := (mem_readyRules_iff config.search).mpr ⟨r, hr, hconsistent, rfl⟩
  have hsound := isSound_of_mem_readyRules hp
  refine ⟨_, hp, m, ?_, hresult⟩
  rw [List.take_of_length_le (hsound.length_occurrences_le.trans (hcap r hr hconsistent))]
  refine hsound.mem_occurrences_iff.mpr ⟨hm, fun o ho => ?_⟩
  rw [hbreaking] at ho
  cases ho

/-- A prepared rule can be applied at every occurrence of its left side, which is a step by a rule
with its id. -/
theorem exists_rewritesBy (hconfig : config.validate = .ok ()) {p : ReadyRule}
    (hp : p ∈ readyRules config.search rules) {m : List Nat}
    (hm : m ∈ p.left.occurrences p.order g.view) :
    ∃ h, p.rule.rewrite config.rewrite g.view m = .ok h ∧
      RewritesBy config.rewrite rules (p.rule.id.getD "") g h := by
  have hsound := isSound_of_mem_readyRules hp
  obtain ⟨r, hr, hconsistent, hready⟩ := (mem_readyRules_iff _).mp hp
  obtain ⟨h, hresult⟩ := hsound.exists_rewrite config.rewrite hm
  have hrule : p.rule = r := by rw [hready]
  refine ⟨h, hresult, p.rule, hrule ▸ hr, hsound.consistent, rfl, m,
    (hsound.mem_occurrences_iff.mp hm).1, ?_⟩
  exact applyRule_eq_ok_iff.mpr
    ⟨hsound.consistent, GrammarConfig.validate_rewrite hconfig, hresult⟩

theorem Searched.mono {graphs graphs' : List Graph} {p : Graph × List String}
    (h : Searched config rules goal depth g graphs p) (hsub : graphs ⊆ graphs') :
    Searched config rules goal depth g graphs' p :=
  ⟨h.leads, h.length_le, h.goal_eq, fun hlt k hk => (h.closed hlt k hk).mono hsub⟩

/-- A graph that was met after a step was met one step later from the graph before. -/
theorem Searched.head {graphs : List Graph} {p : Graph × List String} {child : Graph} {id : String}
    (h : Searched config rules goal depth child graphs p)
    (hstep : RewritesBy config.rewrite rules id g child) :
    Searched config rules goal (depth + 1) g graphs (p.1, id :: p.2) :=
  ⟨.head hstep h.leads, Nat.succ_le_succ h.length_le, h.goal_eq,
    fun hlt => h.closed (Nat.lt_of_succ_lt_succ hlt)⟩

/-! ### Parts of a search -/

theorem Exploration.isOver_eq_false_iff {s : Exploration} : s.isOver = false ↔
    s.solution = none ∧ s.exhausted = false ∧ s.fault = none := by
  simp [isOver, and_assoc]

namespace Inquiry

variable {s s' s'' : Recorded} {met met' : List (Graph × List String)}
  {done done' : List Graph → Prop} {next : Recorded × Decision}

theorem Passes.subset (h : s.Passes config rules goal depth g met s') :
    s.visited.graphs ⊆ s'.visited.graphs := by
  rw [h.graphs_eq]
  exact List.subset_append_left _ _

/-- Nothing was met. -/
theorem Passes.of_graphs_eq (hs : s'.isOver = false) (hpath : s'.path = s.path)
    (hgraphs : s'.visited.graphs = s.visited.graphs) (hmemory : s'.memory = s.memory)
    (hcollects : (∃ graphs, s.visited.Collects graphs) → ∃ graphs, s'.visited.Collects graphs)
    (hexpansions : s'.expansions = s.expansions) :
    s.Passes config rules goal depth g [] s' :=
  ⟨hs, hpath, by rw [hgraphs, List.map_nil, List.append_nil],
    by rw [hmemory, List.map_nil, List.append_nil], hcollects, hexpansions,
    fun _ hp => absurd hp List.not_mem_nil, fun _ hp => absurd hp List.not_mem_nil⟩

theorem Passes.trans (h : s.Passes config rules goal depth g met s')
    (h' : s'.Passes config rules goal depth g met' s'') :
    s.Passes config rules goal depth g (met ++ met') s'' where
  isOver_eq := h'.isOver_eq
  path_eq := h'.path_eq.trans h.path_eq
  graphs_eq := by rw [h'.graphs_eq, h.graphs_eq, List.map_append, List.append_assoc]
  memory_eq := by rw [h'.memory_eq, h.memory_eq, h.path_eq, List.map_append, List.append_assoc]
  collects hs := h'.collects (h.collects hs)
  expansions_eq := by rw [h'.expansions_eq, h.expansions_eq, List.length_append, Nat.add_assoc]
  searched p hp := by
    rcases List.mem_append.mp hp with hp | hp
    · exact (h.searched p hp).mono h'.subset
    · exact h'.searched p hp
  length_le p hp := by
    rw [List.length_append]
    rcases List.mem_append.mp hp with hp | hp
    · exact (h.length_le p hp).trans (Nat.le_add_right _ _)
    · exact (h'.length_le p hp).trans (Nat.le_add_left _ _)

theorem Goes.fault_eq (h : s.Goes config rules goal depth g done next) : next.1.fault = none := by
  cases h with
  | solved _ hfault => exact hfault
  | exhausted _ _ hfault => exact hfault
  | passed hpasses => exact (Exploration.isOver_eq_false_iff.mp hpasses.isOver_eq).2.2

/-- A weaker claim, which may depend on the graphs seen before. -/
theorem Goes.imp (h : s.Goes config rules goal depth g done next)
    (himp : ∀ graphs, s.visited.graphs ⊆ graphs → done graphs → done' graphs) :
    s.Goes config rules goal depth g done' next := by
  cases h with
  | solved hsolution hfault hgoal hleads hlength hpath =>
    exact .solved hsolution hfault hgoal hleads hlength hpath
  | exhausted hsolution hexhausted hfault => exact .exhausted hsolution hexhausted hfault
  | passed hpasses hdone => exact .passed hpasses (himp _ hpasses.subset hdone)

/-- The decision can be read off the state. -/
theorem Goes.of_isOver (h : s.Goes config rules goal depth g done next) :
    s.Goes config rules goal depth g done (next.1, if next.1.isOver then .stop else .proceed) := by
  cases h with
  | solved hsolution hfault hgoal hleads hlength hpath =>
    rw [if_pos (by simp [Exploration.isOver, hsolution])]
    exact .solved hsolution hfault hgoal hleads hlength hpath
  | exhausted hsolution hexhausted hfault =>
    rw [if_pos (by simp [Exploration.isOver, hexhausted])]
    exact .exhausted hsolution hexhausted hfault
  | passed hpasses hdone =>
    rw [if_neg (by simp [hpasses.isOver_eq])]
    exact .passed hpasses hdone

/-- A part of a search after one that passes. -/
theorem Passes.goes (h : s.Passes config rules goal depth g met s')
    (h' : s'.Goes config rules goal depth g done next) :
    s.Goes config rules goal depth g done next := by
  cases h' with
  | solved hsolution hfault hgoal hleads hlength hpath =>
    exact .solved hsolution hfault hgoal hleads hlength (by rw [hpath, h.path_eq])
  | exhausted hsolution hexhausted hfault => exact .exhausted hsolution hexhausted hfault
  | passed hpasses hdone => exact .passed (h.trans hpasses) hdone

/-- **A loop** whose steps end in one of the three ways ends in one of them, if claims stay true
when more graphs are seen. -/
theorem goes_untilHalted {α : Type} {f : α → Recorded → Recorded × Decision} {l : List α}
    {done : α → List Graph → Prop}
    (hmono : ∀ a graphs graphs', graphs ⊆ graphs' → done a graphs → done a graphs')
    (h : ∀ a ∈ l, ∀ s : Recorded, s.isOver = false →
      s.Goes config rules goal depth g (done a) (f a s)) (hs : s.isOver = false) :
    s.Goes config rules goal depth g (fun graphs => ∀ a ∈ l, done a graphs)
      (untilHalted f l s) := by
  induction l generalizing s with
  | nil =>
    exact .passed (.of_graphs_eq hs rfl rfl rfl (fun h => h) rfl) fun a ha => nomatch ha
  | cons a l ih =>
    have hfirst := h a (List.mem_cons_self ..) s hs
    rw [untilHalted]
    generalize f a s = next at hfirst ⊢
    cases hfirst with
    | solved hsolution hfault hgoal hleads hlength hpath =>
      exact .solved hsolution hfault hgoal hleads hlength hpath
    | exhausted hsolution hexhausted hfault => exact .exhausted hsolution hexhausted hfault
    | @passed s' met hpasses hdone =>
      have hrest := ih (fun b hb => h b (List.mem_cons_of_mem _ hb)) hpasses.isOver_eq
      refine hpasses.goes (hrest.imp fun graphs hsub hdone' b hb => ?_)
      rcases List.mem_cons.mp hb with rfl | hb
      · exact hmono b _ _ hsub hdone
      · exact hdone' b hb

/-! ### One level after the other -/

variable {child : Graph} {id : String} {descend : Graph → Recorded → Recorded × Decision}

/-- What was met from a new graph, and this graph itself. -/
theorem Passes.head {visited : UniqueGraphs}
    (hinsert : s.visited.insert child = (visited, true))
    (hstep : RewritesBy config.rewrite rules id g child)
    (h : Passes config rules goal depth child (meet { s with
      visited := visited, expansions := s.expansions + 1, path := id :: s.path } child) met s')
    (hchild : Searched config rules goal depth child s'.visited.graphs (child, [])) :
    s.Passes config rules goal (depth + 1) g
      ((child, [id]) :: met.map fun p => (p.1, id :: p.2)) { s' with path := s'.path.tail } where
  isOver_eq := h.isOver_eq
  path_eq := congrArg List.tail h.path_eq
  graphs_eq := by
    have hgraphs := h.graphs_eq
    rw [meet_toExploration, UniqueGraphs.graphs_of_insert_eq_true hinsert] at hgraphs
    rw [List.map_cons, List.map_map, hgraphs, List.append_assoc, List.singleton_append]
    rfl
  memory_eq := by
    have hmemory := h.memory_eq
    simp only [meet, List.length_cons, Nat.add_right_comm] at hmemory
    simp [hmemory, Nat.add_assoc]
  collects := by
    rintro ⟨graphs, hcollects⟩
    have hnew := hcollects.insert child
    rw [hinsert] at hnew
    exact h.collects ⟨_, hnew⟩
  expansions_eq := by
    have hexpansions := h.expansions_eq
    rw [meet_toExploration] at hexpansions
    rw [List.length_cons, List.length_map]
    dsimp only at hexpansions ⊢
    omega
  searched p hp := by
    rcases List.mem_cons.mp hp with rfl | hp
    · exact hchild.head hstep
    · obtain ⟨q, hq, rfl⟩ := List.mem_map.mp hp
      exact (h.searched q hq).head hstep
  length_le p hp := by
    rw [List.length_cons, List.length_map]
    rcases List.mem_cons.mp hp with rfl | hp
    · exact Nat.le_add_left _ _
    · obtain ⟨q, hq, rfl⟩ := List.mem_map.mp hp
      exact Nat.succ_le_succ (h.length_le q hq)

/-- **Going on with the result of a step.** -/
theorem goes_expandAsking (hstep : RewritesBy config.rewrite rules id g child)
    (hdescend : ∀ s : Recorded, s.isOver = false → (s.meet child).Goes config rules goal depth child
      (fun graphs => Searched config rules goal depth child graphs (child, [])) (descend child s))
    (hs : s.isOver = false) : s.Goes config rules goal (depth + 1) g
      (fun graphs => Represented graphs child) (expandAsking limits descend id child s) := by
  have hnot := Exploration.isOver_eq_false_iff.mp hs
  rw [expandAsking]
  cases hinsert : s.visited.insert child with
  | mk visited new =>
    cases new with
    | false =>
      obtain ⟨hgraphs, hrepresented⟩ := UniqueGraphs.represented_of_insert_eq_false hinsert
      refine .passed (.of_graphs_eq hs rfl hgraphs rfl ?_ rfl) (hgraphs ▸ hrepresented)
      rintro ⟨graphs, hcollects⟩
      have hnew := hcollects.insert child
      rw [hinsert] at hnew
      exact ⟨_, hnew⟩
    | true =>
      dsimp only
      split
      · exact .exhausted hnot.1 rfl hnot.2.2
      · have hdown := hdescend { s with
          visited := visited, expansions := s.expansions + 1, path := id :: s.path } hs
        generalize descend child _ = next at hdown ⊢
        cases hdown with
        | solved hsolution hfault hgoal hleads hlength hpath =>
          refine .solved hsolution hfault hgoal (.head hstep hleads) (Nat.succ_le_succ hlength) ?_
          rw [hpath, meet_toExploration, List.reverse_cons, List.append_assoc,
            List.singleton_append]
        | exhausted hsolution hexhausted hfault => exact .exhausted hsolution hexhausted hfault
        | @passed s' met hpasses hdone =>
          have hhead := hpasses.head hinsert hstep hdone
          refine .passed hhead ⟨child, ?_, Graph.Isomorphic.refl child⟩
          rw [hhead.graphs_eq]
          exact List.mem_append_right _ (List.mem_cons_self ..)

/-- **Applying one rule** at the first matches up to the cap. -/
theorem goes_exploreRuleAsking (hconfig : config.validate = .ok ()) {p : ReadyRule}
    (hp : p ∈ readyRules config.search rules)
    (hdescend : ∀ child, ∀ s : Recorded, s.isOver = false →
      (s.meet child).Goes config rules goal depth child
        (fun graphs => Searched config rules goal depth child graphs (child, []))
        (descend child s))
    (hs : s.isOver = false) : s.Goes config rules goal (depth + 1) g
      (fun graphs => ∀ m ∈ (p.left.occurrences p.order g.view).take config.search.maxHits, ∀ child,
        p.rule.rewrite config.rewrite g.view m = .ok child → Represented graphs child)
      (exploreRuleAsking config limits descend g.view p s) := by
  have hhit : ∀ hit ∈ (p.left.hits p.order g.view 0).take config.search.maxHits,
      ∀ s : Recorded, s.isOver = false → s.Goes config rules goal (depth + 1) g
        (fun graphs => ∀ child, p.rule.rewrite config.rewrite g.view hit.occurrence.images =
          .ok child → Represented graphs child)
        (expandHitAsking config.rewrite limits descend p.rule g.view s hit) := by
    intro hit hhit s hs
    obtain ⟨m, hm, rfl⟩ := List.mem_map.mp (List.mem_of_mem_take hhit)
    obtain ⟨child, hresult, hstep⟩ := exists_rewritesBy hconfig hp hm
    rw [expandHitAsking]
    simp only [hresult]
    exact (goes_expandAsking hstep (hdescend child) hs).imp
      fun graphs _ hrepresented child' hchild' =>
      Except.ok.inj hchild' ▸ hrepresented
  have hhits := goes_untilHalted
    (f := fun hit s => expandHitAsking config.rewrite limits descend p.rule g.view s hit)
    (fun hit graphs graphs' hsub hdone child hchild => (hdone child hchild).mono hsub) hhit hs
  rw [exploreRuleAsking, searchOne_state_eq_take]
  refine (hhits.imp fun graphs _ hdone m hm => ?_).of_isOver
  refine hdone ⟨0, ⟨m⟩⟩ ?_
  rw [Pattern.hits, ← List.map_take]
  exact List.mem_map_of_mem hm

/-- **The search from one graph.** -/
theorem goes_exploreWatching (hconfig : config.validate = .ok ()) (hs : s.isOver = false) :
    (s.meet g).Goes config rules goal depth g
      (fun graphs => Searched config rules goal depth g graphs (g, []))
      (exploreWatching config limits (.recording goal) (readyRules config.search rules) depth g
        s) := by
  have hnot := Exploration.isOver_eq_false_iff.mp hs
  induction depth generalizing g s with
  | zero =>
    rw [exploreWatching, Watcher.recording]
    cases hgoal : goal g with
    | true => exact .solved rfl hnot.2.2 hgoal .refl (Nat.zero_le _) rfl
    | false =>
      exact .passed (.of_graphs_eq hs rfl rfl rfl (fun h => h) rfl)
        ⟨.refl, Nat.zero_le _, hgoal, fun hlt => absurd hlt (Nat.lt_irrefl _)⟩
  | succ depth ih =>
    rw [exploreWatching, Watcher.recording]
    cases hgoal : goal g with
    | true => exact .solved rfl hnot.2.2 hgoal .refl (Nat.zero_le _) rfl
    | false =>
      have hrule : ∀ p ∈ readyRules config.search rules, ∀ s : Recorded, s.isOver = false →
          s.Goes config rules goal (depth + 1) g
            (fun graphs => ∀ m ∈ (p.left.occurrences p.order g.view).take config.search.maxHits,
              ∀ child, p.rule.rewrite config.rewrite g.view m = .ok child →
                Represented graphs child)
            (exploreRuleAsking config limits (exploreWatching config limits (.recording goal)
              (readyRules config.search rules) depth) g.view p s) :=
        fun p hp s hs => goes_exploreRuleAsking hconfig hp
          (fun child s hs => ih hs (Exploration.isOver_eq_false_iff.mp hs)) hs
      have hrules := goes_untilHalted
        (fun p graphs graphs' hsub hdone m hm child hchild => (hdone m hm child hchild).mono hsub)
        hrule (s := s.meet g) hs
      refine hrules.imp fun graphs _ hdone =>
        ⟨.refl, Nat.zero_le _, hgoal, fun _ child htries => ?_⟩
      obtain ⟨p, hp, m, hm, hresult⟩ := htries
      exact hdone p hp m hm child hresult

end Inquiry

end

end GraphGrammar
