import GraphGrammar.Graph.Basic
import GraphGrammar.Pattern.Basic
import GraphGrammar.Rule.Basic

/-!
# The sides of a rule as graphs

Each side of a rule is a graph of its own. Its nodes are the nodes of the rule on that side,
numbered anew in the same order, and its edges are the edges on that side whose endpoints are both
on it, in the same order. The left side is also a pattern, with the constraints all of whose nodes
are on the left.

## Main definitions

* `GraphGrammar.Side` — left or right.
* `GraphGrammar.Rule.sideNodes`, `GraphGrammar.Rule.localNumber?` — the two numberings.
* `GraphGrammar.Rule.sideGraph` — a side as a graph.
* `GraphGrammar.Rule.leftPattern` — the left side as a pattern.
-/

namespace GraphGrammar

/-- A side of a rule. -/
inductive Side where
  /-- What the rule looks for. -/
  | left
  /-- What the rule leaves behind. -/
  | right
deriving DecidableEq

namespace Side

/-- Whether a node is on the side. -/
def hasNode : Side → NodeRole → Bool
  | left, role => role.onLeft
  | right, role => role.onRight

/-- Whether an edge is on the side. -/
def hasEdge : Side → EdgeRole → Bool
  | left, role => role.onLeft
  | right, role => role.onRight

/-- The label of a node on the side. A label change without right label keeps its label. -/
def label : Side → RuleNode → String
  | left, n => n.label
  | right, n => n.rightLabel?.getD n.label

end Side

namespace Rule

/-- The rule nodes on a side, in ascending order. The place of a node in the list is its number on
the side. -/
def sideNodes (r : Rule) (s : Side) : List Nat :=
  (List.range r.nodes.length).filter fun v => (r.roleOf v).any s.hasNode

/-- The number on a side of a rule node. -/
def localNumber? (r : Rule) (s : Side) (v : Nat) : Option Nat := (r.sideNodes s).idxOf? v

/-- The labels of the nodes on a side. -/
def sideLabels (r : Rule) (s : Side) : List String :=
  (r.sideNodes s).map fun v => (r.nodes[v]?).elim "" s.label

/-- An edge of the rule as an edge of a side, if it is on the side and so are its endpoints. -/
def sideEdge? (r : Rule) (s : Side) (e : RuleEdge) : Option Edge :=
  if s.hasEdge e.role then do
    some ⟨← r.localNumber? s e.source, ← r.localNumber? s e.target, e.label⟩
  else none

theorem localNumber?_lt {r : Rule} {s : Side} {v i : Nat} (h : r.localNumber? s v = some i) :
    i < (r.sideLabels s).length := by
  obtain ⟨hi, -⟩ := List.idxOf?_eq_some_iff.mp h
  simpa [sideLabels] using hi

/-- A side of a rule as a graph. -/
def sideGraph (r : Rule) (s : Side) : Graph where
  labels := r.sideLabels s
  edges := r.edges.filterMap (r.sideEdge? s)
  endpoints_lt e he := by
    obtain ⟨e', -, h⟩ := List.mem_filterMap.mp he
    rw [sideEdge?] at h
    split at h
    · obtain ⟨a, ha, h⟩ := Option.bind_eq_some_iff.mp h
      obtain ⟨b, hb, h⟩ := Option.bind_eq_some_iff.mp h
      cases h
      exact ⟨localNumber?_lt ha, localNumber?_lt hb⟩
    · cases h

/-- The left side of a rule as a pattern. Of the constraints it has those whose nodes are all on the
left. -/
def leftPattern (r : Rule) : Pattern where
  graph := (r.sideGraph .left).view
  constraints := r.constraints.filterMap (·.remap (r.localNumber? .left))
  wildcard := r.wildcard

/-- The right side of a rule as a graph, its edges listed at their smaller endpoints. -/
def rightGraph (r : Rule) : Graph := (r.sideGraph .right).view.toGraph

end Rule

end GraphGrammar
