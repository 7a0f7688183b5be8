/-!
# Sides of a rule

A rule is one graph in which every node and every edge says on which side it is: the left side is
what the rule looks for, the right side what it leaves behind.

## Main definitions

* `GraphGrammar.NodeRole`, `GraphGrammar.EdgeRole`, and their sides.
* `GraphGrammar.EdgeRole.mayJoin` — which nodes an edge may join.
-/

namespace GraphGrammar

/-- The sides that a node of a rule is on. -/
inductive NodeRole where
  /-- On both sides, unchanged. -/
  | kept
  /-- On the left side only: deleted by an application. -/
  | leftOnly
  /-- On the right side only: created by an application. -/
  | rightOnly
  /-- On both sides, with another label on the right. -/
  | labelChange
deriving DecidableEq

namespace NodeRole

/-- Whether the node is on the left side. -/
def onLeft : NodeRole → Bool
  | rightOnly => false
  | _ => true

/-- Whether the node is on the right side. -/
def onRight : NodeRole → Bool
  | leftOnly => false
  | _ => true

/-- Whether the node is on both sides. -/
def survives : NodeRole → Bool
  | kept | labelChange => true
  | leftOnly | rightOnly => false

/-- The place of a role in the order of their declaration. -/
def rank : NodeRole → Nat
  | kept => 0
  | leftOnly => 1
  | rightOnly => 2
  | labelChange => 3

end NodeRole

/-- The sides that an edge of a rule is on. -/
inductive EdgeRole where
  /-- On both sides. -/
  | kept
  /-- On the left side only: deleted by an application. -/
  | leftOnly
  /-- On the right side only: created by an application. -/
  | rightOnly
deriving DecidableEq

namespace EdgeRole

/-- Whether the edge is on the left side. -/
def onLeft : EdgeRole → Bool
  | rightOnly => false
  | _ => true

/-- Whether the edge is on the right side. -/
def onRight : EdgeRole → Bool
  | leftOnly => false
  | _ => true

/-- Whether an edge may join two nodes: both are on every side that the edge is on. -/
def mayJoin (e : EdgeRole) (a b : NodeRole) : Bool :=
  match e with
  | kept => a.survives && b.survives
  | leftOnly => a.onLeft && b.onLeft
  | rightOnly => a.onRight && b.onRight

end EdgeRole

end GraphGrammar
