import GraphGrammar.Pattern.Constraint
import GraphGrammar.Rule.Problem
import GraphGrammar.Rule.Role

/-!
# Rewrite rules

A rule is a graph whose nodes and edges say on which side they are, with constraints on its matches
and with directives on what happens to edges that lose an endpoint. Nodes are numbered in the order
in which they were added, and constraints and directives use these numbers. A rule may have any
structure; its problems are found by `GraphGrammar.Rule.problems`.

## Main definitions

* `GraphGrammar.RuleNode`, `GraphGrammar.RuleEdge`, `GraphGrammar.Rerouting`,
  `GraphGrammar.Rule`.
* `GraphGrammar.Rerouting.admits` — which edges a directive reroutes.
* `GraphGrammar.Rule.problems` — the structural problems of a rule.
-/

namespace GraphGrammar

/-- A node of a rule. -/
structure RuleNode where
  /-- The sides that it is on. -/
  role : NodeRole
  /-- Its label; of a label change, the label on the left side. -/
  label : String
  /-- The right label of a label change. -/
  newLabel : Option String
deriving DecidableEq

namespace RuleNode

/-- The label on the left side, if the node is on it. -/
def leftLabel? (n : RuleNode) : Option String := if n.role.onLeft then some n.label else none

/-- The label on the right side, if the node is on it and has one. -/
def rightLabel? (n : RuleNode) : Option String :=
  match n.role with
  | .leftOnly => none
  | .labelChange => n.newLabel
  | .kept | .rightOnly => some n.label

end RuleNode

/-- An edge of a rule. -/
structure RuleEdge where
  /-- The endpoint given first. -/
  source : Nat
  /-- The endpoint given second. -/
  target : Nat
  /-- The sides that it is on. -/
  role : EdgeRole
  /-- The label. -/
  label : String
deriving DecidableEq

namespace RuleEdge

/-- Whether both endpoints are the same node. -/
def isSelfLoop (e : RuleEdge) : Bool := e.source == e.target

/-- The endpoint opposite to `v`. -/
def other (e : RuleEdge) (v : Nat) : Nat := if e.source = v then e.target else e.source

end RuleEdge

/-- A directive on the edges that lose the endpoint `source` when it is deleted: those that pass the
filters are drawn again from `pasteTarget` to the endpoint that survives. -/
structure Rerouting where
  /-- The deleted node. -/
  source : Nat
  /-- The node that gets the edges. -/
  pasteTarget : Nat
  /-- The rule nodes whose images may be the surviving endpoint; all nodes of the target if there is
  no filter. -/
  targetFilter : Option (SortedSet Nat)
  /-- The labels of the edges; all if there is no filter. -/
  edgeLabels : Option (SortedSet String)
deriving DecidableEq

/-- Whether a directive reroutes an edge with the label `label`, whose surviving endpoint is the
image of the rule node `other`, if it is the image of one. -/
def Rerouting.admits (d : Rerouting) (other : Option Nat) (label : String) : Bool :=
  (d.targetFilter.all fun nodes => other.any nodes.contains) &&
    d.edgeLabels.all fun labels => labels.contains label

/-- A rewrite rule. -/
structure Rule where
  /-- The id. -/
  id : Option String
  /-- The nodes. -/
  nodes : List RuleNode
  /-- The edges. -/
  edges : List RuleEdge
  /-- The constraints. -/
  constraints : List Constraint
  /-- The directives. -/
  directives : List Rerouting
  /-- The label that admits every label of a target. -/
  wildcard : Option String
deriving DecidableEq

namespace Rule

/-- The rule without nodes and id. -/
def empty : Rule := ⟨none, [], [], [], [], none⟩

/-- The rule with a node added. Its number is the former number of nodes. -/
def addNode (r : Rule) (n : RuleNode) : Rule := { r with nodes := r.nodes ++ [n] }

/-- The rule with an edge added. Its endpoints are not checked. -/
def addEdge (r : Rule) (e : RuleEdge) : Rule := { r with edges := r.edges ++ [e] }

/-- The rule with a constraint added. -/
def addConstraint (r : Rule) (c : Constraint) : Rule :=
  { r with constraints := r.constraints ++ [c] }

/-- The rule with a directive added. -/
def addDirective (r : Rule) (d : Rerouting) : Rule :=
  { r with directives := r.directives ++ [d] }

/-- The directives on the edges of one deleted node. -/
def directivesOf (r : Rule) (source : Nat) : List Rerouting :=
  r.directives.filter fun d => d.source == source

/-- The sides that a node is on, if it exists. -/
def roleOf (r : Rule) (v : Nat) : Option NodeRole := (r.nodes[v]?).map (·.role)

/-! ### Problems -/

/-- Whether the rule has an id that is not empty. -/
def hasId (r : Rule) : Bool := r.id.any fun id => !id.isEmpty

/-- The problems of a node. -/
def nodeProblems (n : RuleNode) : List Problem :=
  if n.role = .labelChange ∧ n.newLabel = none then [.labelChangeWithoutRightLabel] else []

/-- The problems of an edge. -/
def edgeProblems (r : Rule) (e : RuleEdge) : List Problem :=
  match r.roleOf e.source, r.roleOf e.target with
  | some a, some b => if e.role.mayJoin a b then [] else [.wrongEdgeRole]
  | _, _ => [.edgeEndpointOutOfRange]

/-- The problems of a directive. -/
def directiveProblems (r : Rule) (d : Rerouting) : List Problem :=
  (if r.roleOf d.source = some .leftOnly then [] else [.directiveSourceNotLeftOnly]) ++
    (if (r.roleOf d.pasteTarget).any (·.onRight) then [] else [.directiveTargetNotRight]) ++
    (if d.targetFilter.any fun nodes => nodes.toList.any (r.nodes.length ≤ ·) then
      [.directiveFilterOutOfRange] else [])

/-- The problems of a constraint. -/
def constraintProblems (r : Rule) (c : Constraint) : List Problem :=
  if c.nodes.all fun v => (r.roleOf v).any (·.onLeft) then [] else [.constraintNodeNotLeft]

/-- All problems of a rule, each as often as it occurs. -/
def problems (r : Rule) : List Problem :=
  (if r.hasId then [] else [.noRuleId]) ++ r.nodes.flatMap nodeProblems ++
    r.edges.flatMap r.edgeProblems ++ r.directives.flatMap r.directiveProblems ++
    r.constraints.flatMap r.constraintProblems

/-- The set of the problems of a rule. -/
def problemSet (r : Rule) : ProblemSet := ProblemSet.ofList r.problems

/-- Whether a rule has no problems. -/
def isConsistent (r : Rule) : Bool := r.problems.isEmpty

end Rule

end GraphGrammar
