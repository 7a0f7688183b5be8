import GraphGrammar.Proofs.Rewrite.Runs
import GraphGrammar.Rewrite.DepthFirst

/-!
# Goals with a memory

A goal may have a memory, so that it can count the graphs on which it is evaluated, or list them. It
may also be shown the path on which the search comes to a graph, and then it can remember after how
many steps the graph was met. The search with such a goal makes the same steps as the search with a
goal that always gives the same answers.

## Main definitions

* `GraphGrammar.Watcher` — goals that are shown the path and have a memory.
* `GraphGrammar.Watcher.recording` — the one that remembers the graphs and the steps to them.
* `GraphGrammar.searchWatching` — the search with such a goal.
* `GraphGrammar.StatefulGoal`, `GraphGrammar.searchAsking` — goals that are not shown the path.

## Main results

* `GraphGrammar.exploreWatching_follows` — the memory does not matter for the search.
-/

namespace GraphGrammar

/-- A goal that is shown the path and has a memory: its answer for a graph and the ids on the path,
the last one first, and what it remembers then. -/
def Watcher (τ : Type) : Type := Graph → List String → τ → Bool × τ

/-- A goal with a memory: its answer for a graph, and what it remembers then. -/
def StatefulGoal (τ : Type) : Type := Graph → τ → Bool × τ

namespace Watcher

variable {τ : Type} (watch : Watcher τ)

/-- Whether the answers are those of a goal without a memory. -/
def Answers (goal : Graph → Bool) : Prop := ∀ g path memory, (watch g path memory).1 = goal g

/-- The goal that remembers the graphs, each with the number of steps on the path to it. -/
def recording (goal : Graph → Bool) : Watcher (List (Graph × Nat)) :=
  fun g path met => (goal g, met ++ [(g, path.length)])

theorem answers_recording (goal : Graph → Bool) : (recording goal).Answers goal :=
  fun _ _ _ => rfl

end Watcher

namespace StatefulGoal

variable {τ : Type} (ask : StatefulGoal τ)

/-- The goal that does not look at the path. -/
def watcher : Watcher τ := fun g _ memory => ask g memory

/-- Whether the answers are those of a goal without a memory. -/
def Answers (goal : Graph → Bool) : Prop := ∀ g memory, (ask g memory).1 = goal g

variable {ask} in
theorem Answers.watcher {goal : Graph → Bool} (h : ask.Answers goal) : ask.watcher.Answers goal :=
  fun g _ memory => h g memory

/-- What is remembered after some graphs, one after the other. -/
def remember (graphs : List Graph) (memory : τ) : τ :=
  graphs.foldl (fun memory g => (ask g memory).2) memory

theorem remember_concat (graphs : List Graph) (g : Graph) (memory : τ) :
    ask.remember (graphs ++ [g]) memory = (ask g (ask.remember graphs memory)).2 :=
  List.foldl_concat ..

/-- The goal that remembers the graphs. -/
def listing (goal : Graph → Bool) : StatefulGoal (List Graph) :=
  fun g graphs => (goal g, graphs ++ [g])

theorem answers_listing (goal : Graph → Bool) : (listing goal).Answers goal := fun _ _ => rfl

end StatefulGoal

/-- The state of a search whose goal has a memory. -/
structure Inquiry (τ : Type) extends Exploration where
  /-- What the goal remembers. -/
  memory : τ

/-- The state in which a search begins. -/
def Exploration.initial (start : Graph) : Exploration :=
  ⟨UniqueGraphs.add UniqueGraphs.empty start, [], 0, false, none, none⟩

section

variable {τ : Type}

/-- The state in which a search begins whose goal has a memory. -/
def Inquiry.initial (start : Graph) (memory : τ) : Inquiry τ := ⟨.initial start, memory⟩

/-- Goes on with the result of a step, as `expand` does. -/
def expandAsking (limits : SearchLimits) (descend : Graph → Inquiry τ → Inquiry τ × Decision)
    (id : String) (child : Graph) (s : Inquiry τ) : Inquiry τ × Decision :=
  match s.visited.insert child with
  | (visited, false) => ({ s with visited }, .proceed)
  | (visited, true) =>
    if limits.maxExpansions ≤ s.expansions then ({ s with visited, exhausted := true }, .stop)
    else
      let s := { s with visited, expansions := s.expansions + 1, path := id :: s.path }
      match descend child s with
      | (s, .stop) => (s, .stop)
      | (s, _) => ({ s with path := s.path.tail }, .proceed)

/-- Applies a rule at a hit, as `expandHit` does. -/
def expandHitAsking (config : RewriteConfig) (limits : SearchLimits)
    (descend : Graph → Inquiry τ → Inquiry τ × Decision) (r : Rule) (t : GraphView) :
    Listener (Inquiry τ) := fun s hit =>
  match r.rewrite config t hit.occurrence.images with
  | .error fault => ({ s with fault := some fault }, .stop)
  | .ok child => expandAsking limits descend (r.id.getD "") child s

/-- Applies one rule at all matches, as `exploreRule` does. -/
def exploreRuleAsking (config : GrammarConfig) (limits : SearchLimits)
    (descend : Graph → Inquiry τ → Inquiry τ × Decision) (t : GraphView) (p : ReadyRule)
    (s : Inquiry τ) : Inquiry τ × Decision :=
  let listener := expandHitAsking config.rewrite limits descend p.rule t
  let s := (searchOne config.search.maxHits listener p.left p.order t s).state
  (s, if s.isOver then .stop else .proceed)

/-- Searches from a graph, as `explore` does, and shows the graph and the path to a goal that has a
memory. -/
def exploreWatching (config : GrammarConfig) (limits : SearchLimits) (watch : Watcher τ)
    (prepared : List ReadyRule) : Nat → Graph → Inquiry τ → Inquiry τ × Decision
  | 0, g, s =>
    match watch g s.path s.memory with
    | (true, memory) => ({ s with memory, solution := some g }, .stop)
    | (false, memory) => ({ s with memory }, .proceed)
  | depth + 1, g, s =>
    match watch g s.path s.memory with
    | (true, memory) => ({ s with memory, solution := some g }, .stop)
    | (false, memory) =>
      let view := g.view
      untilHalted
        (exploreRuleAsking config limits (exploreWatching config limits watch prepared depth) view)
        prepared { s with memory }

/-- Searches as `searchRewrites` does, with a goal that is shown the path and has a memory. Also
what it remembers. -/
def searchWatching (config : GrammarConfig) (limits : SearchLimits) (rules : List Rule)
    (start : Graph) (watch : Watcher τ) (memory : τ) : Except Fault (Outcome × τ) := do
  let prepared := readyRules config.search rules
  checkRules (prepared.map (·.rule)) config.rewrite
  let s := (exploreWatching config limits watch prepared limits.maxDepth start
    (.initial start memory)).1
  match s.fault with
  | some fault => throw fault
  | none =>
    return (⟨s.solution, if s.solution.isSome then s.path.reverse else [], s.expansions,
      s.exhausted⟩, s.memory)

/-- Searches as `searchRewrites` does, with a goal that has a memory. Also what it remembers. -/
def searchAsking (config : GrammarConfig) (limits : SearchLimits) (rules : List Rule)
    (start : Graph) (ask : StatefulGoal τ) (memory : τ) : Except Fault (Outcome × τ) :=
  searchWatching config limits rules start ask.watcher memory

end

section

variable {τ : Type} {goal : Graph → Bool} {watch : Watcher τ}

/-! ### The memory does not matter for the search -/

/-- Whether a part of a search with a memory makes the same steps as one without it. -/
def Follows {α : Type} (f : α → Inquiry τ → Inquiry τ × Decision)
    (f' : α → Exploration → Exploration × Decision) : Prop :=
  ∀ a s, f' a s.toExploration = ((f a s).1.toExploration, (f a s).2)

theorem Follows.untilHalted {α : Type} {f : α → Inquiry τ → Inquiry τ × Decision}
    {f' : α → Exploration → Exploration × Decision} (h : Follows f f') (l : List α)
    (s : Inquiry τ) :
    untilHalted f' l s.toExploration =
      ((untilHalted f l s).1.toExploration, (untilHalted f l s).2) :=
  untilHalted_map_state h l s

section

variable {descend : Graph → Inquiry τ → Inquiry τ × Decision}
  {descend' : Graph → Exploration → Exploration × Decision}

theorem expandAsking_follows (h : Follows descend descend') (limits : SearchLimits) (id : String) :
    Follows (expandAsking limits descend id) (expand limits descend' id) := by
  intro child s
  rw [expandAsking, expand]
  rcases s.visited.insert child with ⟨visited, _ | _⟩
  · rfl
  · dsimp only
    split
    · rfl
    · have hchild := h child
        { s with visited, expansions := s.expansions + 1, path := id :: s.path }
      dsimp only at hchild
      rw [hchild]
      rcases descend child _ with ⟨s', _ | _ | _⟩ <;> rfl

theorem expandHitAsking_follows (h : Follows descend descend') (config : RewriteConfig)
    (limits : SearchLimits) (r : Rule) (t : GraphView) :
    Follows (fun hit s => expandHitAsking config limits descend r t s hit)
      (fun hit s => expandHit config limits descend' r t s hit) := by
  intro hit s
  dsimp only [expandHitAsking, expandHit]
  rcases r.rewrite config t hit.occurrence.images with fault | child
  · rfl
  · exact expandAsking_follows h limits _ child s

theorem exploreRuleAsking_follows (h : Follows descend descend') (config : GrammarConfig)
    (limits : SearchLimits) (t : GraphView) :
    Follows (exploreRuleAsking config limits descend t) (exploreRule config limits descend' t) := by
  intro p s
  have hhits := (expandHitAsking_follows h config.rewrite limits p.rule t).untilHalted
    ((p.left.hits p.order t 0).take config.search.maxHits) s
  rw [exploreRuleAsking, exploreRule, searchOne_state_eq_take, searchOne_state_eq_take]
  exact congrArg (fun next : Exploration × Decision =>
    (next.1, if next.1.isOver then Decision.stop else .proceed)) hhits

end

/-- **The memory does not matter for the search** from one graph. -/
theorem exploreWatching_follows (hwatch : watch.Answers goal) (config : GrammarConfig)
    (limits : SearchLimits) (prepared : List ReadyRule) (depth : Nat) :
    Follows (exploreWatching config limits watch prepared depth)
      (explore config limits goal prepared depth) := by
  induction depth with
  | zero =>
    intro g s
    rw [exploreWatching, explore, ← hwatch g s.path s.memory]
    rcases watch g s.path s.memory with ⟨_ | _, memory⟩ <;> rfl
  | succ depth ih =>
    intro g s
    rw [exploreWatching, explore, ← hwatch g s.path s.memory]
    rcases watch g s.path s.memory with ⟨_ | _, memory⟩
    · exact (exploreRuleAsking_follows ih config limits g.view).untilHalted prepared
        { s with memory }
    · rfl

end

end GraphGrammar
