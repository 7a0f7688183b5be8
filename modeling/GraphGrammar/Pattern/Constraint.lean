import GraphGrammar.Counts
import GraphGrammar.Graph.View

/-!
# Constraints on matches

A constraint asks for more than structure and labels: what label the image of a node has, what
labels the edges between two images have, that no edge joins two images, or how many edges of some
kind surround an image. It refers to nodes of a pattern, and is judged by the images that a
possibly partial mapping gives them. As long as an image is missing it is not violated.

## Main definitions

* `GraphGrammar.LabelPolicy`, `GraphGrammar.Comparison`, `GraphGrammar.Constraint`.
* `GraphGrammar.Constraint.nodes`, `remap`, `permute` — the nodes referred to, and their renaming.
* `GraphGrammar.Constraint.holds` — the judgement.
-/

namespace GraphGrammar

/-- Whether a set lists the labels that are admitted, or those that are not. -/
inductive LabelPolicy where
  /-- The listed labels are admitted. -/
  | allowed
  /-- All other labels are admitted. -/
  | forbidden
deriving DecidableEq

/-- Whether a set of labels admits a label. -/
def LabelPolicy.admits (policy : LabelPolicy) (labels : SortedSet String) (label : String) : Bool :=
  match policy with
  | allowed => labels.contains label
  | forbidden => !labels.contains label

/-- A comparison of two numbers. -/
inductive Comparison where
  /-- Equal. -/
  | eq
  /-- Less. -/
  | lt
  /-- Less or equal. -/
  | le
  /-- Greater. -/
  | gt
  /-- Greater or equal. -/
  | ge
deriving DecidableEq

/-- Whether a comparison is true of two numbers. -/
def Comparison.compare (op : Comparison) (a b : Nat) : Bool :=
  match op with
  | eq => a == b
  | lt => a < b
  | le => a ≤ b
  | gt => b < a
  | ge => b ≤ a

/-- A condition on the images of the nodes of a pattern. -/
inductive Constraint where
  /-- The label of the image of a node is admitted. -/
  | nodeLabel (node : Nat) (labels : SortedSet String) (policy : LabelPolicy)
  /-- Some edge joins the images of two nodes, and the labels of all such edges are admitted. -/
  | edgeLabel (a b : Nat) (labels : SortedSet String) (policy : LabelPolicy)
  /-- No edge joins the images of two nodes. -/
  | noEdge (a b : Nat)
  /-- The number of edges around the image of a node compares with `count`. Counted are the edges
  whose label is in `edgeLabels` and whose other endpoint has a label in `nodeLabels`; an empty set
  admits everything. A self-loop counts as one half. -/
  | nodeAdjacency (node : Nat) (op : Comparison) (count : Nat)
      (nodeLabels edgeLabels : SortedSet String)
deriving DecidableEq

namespace Constraint

/-- The nodes that a constraint refers to. -/
def nodes : Constraint → List Nat
  | nodeLabel node _ _ | nodeAdjacency node _ _ _ _ => [node]
  | edgeLabel a b _ _ | noEdge a b => [a, b]

/-- The constraint with every node sent through `f`, unless some node has no image. -/
def remap (f : Nat → Option Nat) : Constraint → Option Constraint
  | nodeLabel node labels policy => do some (nodeLabel (← f node) labels policy)
  | edgeLabel a b labels policy => do some (edgeLabel (← f a) (← f b) labels policy)
  | noEdge a b => do some (noEdge (← f a) (← f b))
  | nodeAdjacency node op count nodeLabels edgeLabels => do
    some (nodeAdjacency (← f node) op count nodeLabels edgeLabels)

/-- The constraint with every node sent through `f`. -/
def mapNodes (f : Nat → Nat) : Constraint → Constraint
  | nodeLabel node labels policy => nodeLabel (f node) labels policy
  | edgeLabel a b labels policy => edgeLabel (f a) (f b) labels policy
  | noEdge a b => noEdge (f a) (f b)
  | nodeAdjacency node op count nodeLabels edgeLabels =>
    nodeAdjacency (f node) op count nodeLabels edgeLabels

/-- The constraint with its nodes permuted. A node that the permutation does not list stays. -/
def permute (perm : List Nat) (c : Constraint) : Constraint :=
  c.mapNodes fun v => perm.getD v v

/-- Whether a filter of labels, which admits everything when it is empty, admits a label. -/
def passes (filter : SortedSet String) (label : String) : Bool :=
  filter.isEmpty || filter.contains label

/-- The number of edges around a node that pass both filters, in half units: an edge to another
node counts two, a self-loop one. -/
def halfEdgeCount (t : GraphView) (v : Nat) (nodeLabels edgeLabels : SortedSet String) : Nat :=
  ((t.incident v).filter fun e =>
    passes edgeLabels e.label && passes nodeLabels (t.label e.node)).foldl
    (fun halves e => halves + if e.node == v then 1 else 2) 0

/-- Whether the images that a mapping gives to the nodes of a pattern violate the constraint in no
way. A doubled count above the limit of counts is taken as the limit. -/
def holds (c : Constraint) (t : GraphView) (image : Nat → Option Nat) : Bool :=
  match c with
  | nodeLabel node labels policy =>
    match image node with
    | some v => policy.admits labels (t.label v)
    | none => true
  | edgeLabel a b labels policy =>
    match image a, image b with
    | some v, some w =>
      let between := t.labelsBetween v w
      !between.isEmpty && between.all (policy.admits labels)
    | _, _ => true
  | noEdge a b =>
    match image a, image b with
    | some v, some w => !t.hasEdge v w
    | _, _ => true
  | nodeAdjacency node op count nodeLabels edgeLabels =>
    match image node with
    | some v => op.compare (halfEdgeCount t v nodeLabels edgeLabels) (min (2 * count) countLimit)
    | none => true

/-- Whether judging the constraint reads the target at a number that is no node, where it refuses
to be read. -/
def readsOutside (c : Constraint) (t : GraphView) (image : Nat → Option Nat) : Bool :=
  let refusesLabel v := (t.label? v).isNone
  let refusesEdges v := (t.incident? v).isNone
  match c with
  | nodeLabel node _ _ => (image node).any refusesLabel
  | edgeLabel a b _ _ | noEdge a b => (image b).isSome && (image a).any refusesEdges
  | nodeAdjacency node _ _ _ _ => (image node).any refusesEdges

/-- The judgement on a mapping whose images may not be nodes of the target. -/
def holds? (c : Constraint) (t : GraphView) (image : Nat → Option Nat) : Option Bool :=
  if c.readsOutside t image then none else some (c.holds t image)

end Constraint

end GraphGrammar
