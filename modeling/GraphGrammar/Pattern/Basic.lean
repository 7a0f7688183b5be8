import GraphGrammar.Fault
import GraphGrammar.Pattern.Constraint

/-!
# Patterns

A pattern is what is searched for in a target: a graph, constraints on the images of its nodes, and
possibly a wildcard label.

## Main definitions

* `GraphGrammar.Pattern` and `GraphGrammar.Pattern.addConstraint`.
-/

namespace GraphGrammar

/-- A graph to search for, with constraints on its matches and possibly a wildcard. -/
structure Pattern where
  /-- The graph. -/
  graph : GraphView
  /-- The constraints. -/
  constraints : List Constraint
  /-- The label that admits every label of the target. -/
  wildcard : Option String

namespace Pattern

/-- The pattern without constraints and wildcard. -/
def ofGraph (g : GraphView) : Pattern := ⟨g, [], none⟩

/-- The pattern with one more constraint, which may only refer to nodes of the pattern. -/
def addConstraint (p : Pattern) (c : Constraint) : Except Fault Pattern :=
  match c.nodes.find? fun v => p.graph.nodeCount ≤ v with
  | some v => .error (.constraintOutOfRange v p.graph.nodeCount)
  | none => .ok { p with constraints := p.constraints ++ [c] }

/-- Whether all constraints refer to nodes of the pattern only. -/
def inRange (p : Pattern) : Bool :=
  p.constraints.all fun c => c.nodes.all fun v => v < p.graph.nodeCount

end Pattern

end GraphGrammar
