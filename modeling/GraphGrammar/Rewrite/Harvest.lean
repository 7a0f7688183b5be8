import GraphGrammar.Rewrite.Collector
import GraphGrammar.Rewrite.Step

/-!
# Applying rules to hits

While several left sides are searched for, the rule of every hit is applied at once, and the result
goes to a collector. The first application that fails ends the search, and its cause is kept.

## Main definitions

* `GraphGrammar.Harvest` — what was applied so far.
* `GraphGrammar.applyHit` — the listener.
-/

namespace GraphGrammar

/-- What was applied so far. -/
structure Harvest (σ : Type) where
  /-- The state of the collector. -/
  collected : σ
  /-- The number of results. -/
  applied : Nat
  /-- The first cause of failure. -/
  fault : Option Fault

namespace Harvest

variable {σ : Type}

/-- Nothing was applied. -/
def start (collected : σ) : Harvest σ := ⟨collected, 0, none⟩

/-- The state after a failure; an earlier cause stays. -/
def halt (s : Harvest σ) (fault : Fault) : Harvest σ :=
  { s with fault := some (s.fault.getD fault) }

/-- What was collected, unless an application failed. -/
def outcome (s : Harvest σ) : Except Fault σ :=
  match s.fault with
  | some fault => .error fault
  | none => .ok s.collected

end Harvest

/-- Refuses rules and settings with which no step is possible. -/
def checkRules (rules : List Rule) (config : RewriteConfig) : Except Fault Unit :=
  rules.forM fun r => r.checkRewrite config

/-- Applies the rule of a hit, the one at the place of its pattern, and hands over the result. -/
def applyHit {σ : Type} (add : Collector σ) (rules : List Rule) (config : RewriteConfig)
    (t : GraphView) : Listener (Harvest σ) := fun s hit =>
  match rules[hit.pattern]? with
  | none => (s.halt (.unknownPattern hit.pattern rules.length), .stop)
  | some r =>
    match r.rewrite config t hit.occurrence.images with
    | .ok g => ({ s with collected := add s.collected g, applied := s.applied + 1 }, .proceed)
    | .error fault => (s.halt fault, .stop)

end GraphGrammar
