import GraphGrammar.Rewrite.Run

/-!
# Depth-first rewriting

From a start graph, every rule is applied at every match, and the search goes on from every result
that is not isomorphic to a graph seen before, until a graph satisfies the goal. The number of steps
along a path is bounded, and so is the number of graphs from which the search goes on.

## Main definitions

* `GraphGrammar.SearchLimits`, `GraphGrammar.Exploration`, `GraphGrammar.Outcome`.
* `GraphGrammar.explore` — the search from one graph.
* `GraphGrammar.searchRewrites` — the search from the start.
-/

namespace GraphGrammar

/-- The bounds of a search. -/
structure SearchLimits where
  /-- The largest number of steps along a path. -/
  maxDepth : Nat
  /-- The largest number of new graphs from which the search goes on. -/
  maxExpansions : Nat
deriving DecidableEq

/-- The bounds of a search that is given none. -/
def SearchLimits.default : SearchLimits := ⟨64, 100000⟩

/-- The state of a search. -/
structure Exploration where
  /-- The graphs seen so far. -/
  visited : UniqueGraphs
  /-- The ids of the rules applied on the way to the graph at hand, the last one first. -/
  path : List String
  /-- The number of new graphs from which the search went on. -/
  expansions : Nat
  /-- Whether the search ended at the bound on their number. -/
  exhausted : Bool
  /-- The graph that satisfies the goal. -/
  solution : Option Graph
  /-- The cause of a failure. -/
  fault : Option Fault

/-- Whether the search is over: because of a solution, of the bound on the number of graphs, or of a
failure. -/
def Exploration.isOver (s : Exploration) : Bool :=
  s.solution.isSome || s.exhausted || s.fault.isSome

/-- What a search found. -/
structure Outcome where
  /-- The graph that satisfies the goal. -/
  solution : Option Graph
  /-- The ids of the rules applied on the way from the start to the solution. -/
  path : List String
  /-- The number of new graphs from which the search went on. -/
  expansions : Nat
  /-- Whether the search ended at the bound on their number. -/
  exhausted : Bool
deriving DecidableEq

/-- Goes on with the result of a step by `descend`, unless an isomorphic graph was seen before. Only
a search that ended leaves the id of the rule on the path. -/
def expand (limits : SearchLimits) (descend : Graph → Exploration → Exploration × Decision)
    (id : String) (child : Graph) (s : Exploration) : Exploration × Decision :=
  match s.visited.insert child with
  | (visited, false) => ({ s with visited }, .proceed)
  | (visited, true) =>
    if limits.maxExpansions ≤ s.expansions then ({ s with visited, exhausted := true }, .stop)
    else
      let s := { s with visited, expansions := s.expansions + 1, path := id :: s.path }
      match descend child s with
      | (s, .stop) => (s, .stop)
      | (s, _) => ({ s with path := s.path.tail }, .proceed)

/-- Applies a rule at a hit in the graph at hand and goes on with the result. -/
def expandHit (config : RewriteConfig) (limits : SearchLimits)
    (descend : Graph → Exploration → Exploration × Decision) (r : Rule) (t : GraphView) :
    Listener Exploration := fun s hit =>
  match r.rewrite config t hit.occurrence.images with
  | .error fault => ({ s with fault := some fault }, .stop)
  | .ok child => expand limits descend (r.id.getD "") child s

/-- Applies one rule at all matches in the graph at hand. -/
def exploreRule (config : GrammarConfig) (limits : SearchLimits)
    (descend : Graph → Exploration → Exploration × Decision) (t : GraphView) (p : ReadyRule)
    (s : Exploration) : Exploration × Decision :=
  let listener := expandHit config.rewrite limits descend p.rule t
  let s := (searchOne config.search.maxHits listener p.left p.order t s).state
  (s, if s.isOver then .stop else .proceed)

/-- Searches from a graph, by at most `depth` further steps. -/
def explore (config : GrammarConfig) (limits : SearchLimits) (goal : Graph → Bool)
    (prepared : List ReadyRule) : Nat → Graph → Exploration → Exploration × Decision
  | 0, g, s => if goal g then ({ s with solution := some g }, .stop) else (s, .proceed)
  | depth + 1, g, s =>
    if goal g then ({ s with solution := some g }, .stop)
    else
      let view := g.view
      untilHalted (exploreRule config limits (explore config limits goal prepared depth) view)
        prepared s

/-- Searches for a graph that satisfies the goal and can be derived from a start graph by the
consistent ones among some rules. -/
def searchRewrites (config : GrammarConfig) (limits : SearchLimits) (rules : List Rule)
    (start : Graph) (goal : Graph → Bool) : Except Fault Outcome := do
  let prepared := readyRules config.search rules
  checkRules (prepared.map (·.rule)) config.rewrite
  let s := (explore config limits goal prepared limits.maxDepth start
    ⟨UniqueGraphs.add UniqueGraphs.empty start, [], 0, false, none, none⟩).1
  match s.fault with
  | some fault => throw fault
  | none =>
    return ⟨s.solution, if s.solution.isSome then s.path.reverse else [], s.expansions, s.exhausted⟩

end GraphGrammar
