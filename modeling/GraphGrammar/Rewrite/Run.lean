import GraphGrammar.Rewrite.Harvest
import GraphGrammar.Symmetry.Automorphism

/-!
# Runs of many rules

A run applies rules everywhere: every consistent rule at every match of its left side. When
symmetric matches are to be found once, only those symmetries of a left side count that are
symmetries of the whole rule, so that a match that is left out would have given the same result.

## Main definitions

* `GraphGrammar.Rule.isSymmetry` — whether a symmetry of the left side is one of the rule.
* `GraphGrammar.ReadyRule`, `GraphGrammar.readyRules`.
* `GraphGrammar.runReady`, `GraphGrammar.runRules`.
-/

namespace GraphGrammar

namespace Rule

variable (r : Rule)

/-- The rule node to which a permutation of the left side sends a rule node. Nodes that are not on
the left side stay. -/
def ruleNodeImage (perm : List Nat) (v : Nat) : Nat :=
  (do (r.sideNodes .left)[← perm[← r.localNumber? .left v]?]?).getD v

/-- The edges with their nodes sent through `f` and the smaller endpoint first. -/
def normalEdges (f : Nat → Nat) : List (Nat × Nat × EdgeRole × String) :=
  r.edges.map fun e =>
    (min (f e.source) (f e.target), max (f e.source) (f e.target), e.role, e.label)

/-- The directive with its nodes sent through `f`. -/
def mapDirective (f : Nat → Nat) (d : Rerouting) : Rerouting :=
  ⟨f d.source, f d.pasteTarget, d.targetFilter.map (SortedSet.map f), d.edgeLabels⟩

/-- Whether a permutation of the left side, continued by the identity, sends the rule to itself:
every node to an equal one, the edges to the edges, and every directive to a directive. -/
def isSymmetry (perm : List Nat) : Bool :=
  let f := r.ruleNodeImage perm
  ((List.range r.nodes.length).all fun v => r.nodes[f v]? == r.nodes[v]?) &&
    (r.normalEdges fun v => v).isPerm (r.normalEdges f) &&
    r.directives.all fun d => r.directives.contains (mapDirective f d)

/-- The symmetry order of the left side, with the symmetries of the whole rule only. -/
def symmetryOrder (limit : Nat) : SymmetryOrder :=
  let left := r.leftPattern
  SymmetryOrder.ofPermutations left.graph.nodeCount
    ((left.automorphisms limit).permutations.filter r.isSymmetry)

end Rule

/-- A consistent rule with its left side, and a symmetry order if symmetric matches are to be found
once. -/
structure ReadyRule where
  /-- The rule. -/
  rule : Rule
  /-- Its left side. -/
  left : Pattern
  /-- The order. -/
  order : Option SymmetryOrder

/-- Prepares the consistent ones among some rules. -/
def readyRules (config : SearchConfig) (rules : List Rule) : List ReadyRule :=
  (rules.filter Rule.isConsistent).map fun r =>
    { rule := r
      left := r.leftPattern
      order := if config.symmetryBreaking then some (r.symmetryOrder config.maxAutomorphisms)
        else none }

/-- What a run gave: the state of the collector, and the number of results or the cause of a
failure. -/
structure RunResult (σ : Type) where
  /-- The state of the collector, also after a failure. -/
  collected : σ
  /-- The number of results. -/
  applied : Except Fault Nat

/-- Applies prepared rules at all matches of their left sides, in the order of the rules and of the
matches. The cap on the number of hits is shared. -/
def runReady {σ : Type} (config : GrammarConfig) (add : Collector σ) (prepared : List ReadyRule)
    (t : GraphView) (collected : σ) : RunResult σ :=
  let rules := prepared.map (·.rule)
  match checkRules rules config.rewrite with
  | .error fault => ⟨collected, .error fault⟩
  | .ok () =>
    let s := (searchAll config.search.maxHits (applyHit add rules config.rewrite t)
      (prepared.map fun p => (p.left, p.order)) t (Harvest.start collected)).state
    ⟨s.collected, s.outcome.map fun _ => s.applied⟩

/-- Applies the consistent ones among some rules at all matches of their left sides. -/
def runRules {σ : Type} (config : GrammarConfig) (add : Collector σ) (rules : List Rule)
    (t : GraphView) (collected : σ) : RunResult σ :=
  runReady config add (readyRules config.search rules) t collected

end GraphGrammar
