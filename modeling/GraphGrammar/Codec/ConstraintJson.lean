import GraphGrammar.Json.Decode
import GraphGrammar.Json.Writer
import GraphGrammar.Pattern.Constraint

/-!
# Constraints as JSON values

A constraint is a variant with fields, tagged with its kind.

## Main definitions

* `GraphGrammar.Constraint.toJson`, `GraphGrammar.Constraint.ofJson?`,
  `GraphGrammar.Constraint.ofJsonText?`.
-/

namespace GraphGrammar

/-- A set of labels as a value. -/
def SortedSet.labelsToJson (labels : SortedSet String) : Json :=
  .array (labels.toList.map Json.text)

namespace LabelPolicy

/-- The name of a policy. -/
def name : LabelPolicy → String
  | allowed => "allowed"
  | forbidden => "forbidden"

/-- The policy with a name. -/
def ofName? (name : String) : Option LabelPolicy :=
  [allowed, forbidden].find? fun m => m.name == name

end LabelPolicy

namespace Comparison

/-- The symbol of a comparison. -/
def symbol : Comparison → String
  | eq => "="
  | lt => "<"
  | le => "<="
  | gt => ">"
  | ge => ">="

/-- The comparison with a symbol. -/
def ofSymbol? (symbol : String) : Option Comparison :=
  [eq, lt, le, gt, ge].find? fun op => op.symbol == symbol

end Comparison

namespace Constraint

/-- A constraint as a value. -/
def toJson : Constraint → Json
  | nodeLabel node labels policy =>
    .record [("kind", .text "node_label"), ("node", .natural node), ("labels", labels.labelsToJson),
      ("mode", .text policy.name)]
  | edgeLabel a b labels policy =>
    .record [("kind", .text "edge_label"), ("from", .natural a), ("to", .natural b),
      ("labels", labels.labelsToJson), ("mode", .text policy.name)]
  | noEdge a b => .record [("kind", .text "no_edge"), ("from", .natural a), ("to", .natural b)]
  | nodeAdjacency node op count nodeLabels edgeLabels =>
    .record [("kind", .text "node_adjacency"), ("node", .natural node), ("op", .text op.symbol),
      ("count", .natural count), ("node_labels", nodeLabels.labelsToJson),
      ("edge_labels", edgeLabels.labelsToJson)]

/-- The set of labels that a value is. -/
def labels? : Json → Option (SortedSet String) := Json.set? Json.text?

/-- The fields of a constraint on the label of a node. -/
def nodeLabelOfJson? (fields : Json) : Option Constraint := do
  let [node, labels, policy] ← fields.members? ["node", "labels", "mode"] | none
  some (nodeLabel (← Json.required? Json.count? node) (← Json.required? labels? labels)
    (← Json.required? (Json.asideVariant? LabelPolicy.ofName?) policy))

/-- The fields of a constraint on the labels of edges. -/
def edgeLabelOfJson? (fields : Json) : Option Constraint := do
  let [a, b, labels, policy] ← fields.members? ["from", "to", "labels", "mode"] | none
  some (edgeLabel (← Json.required? Json.count? a) (← Json.required? Json.count? b)
    (← Json.required? labels? labels)
    (← Json.required? (Json.asideVariant? LabelPolicy.ofName?) policy))

/-- The fields of a constraint against edges. -/
def noEdgeOfJson? (fields : Json) : Option Constraint := do
  let [a, b] ← fields.members? ["from", "to"] | none
  some (noEdge (← Json.required? Json.count? a) (← Json.required? Json.count? b))

/-- The fields of a constraint on the number of edges. -/
def nodeAdjacencyOfJson? (fields : Json) : Option Constraint := do
  let [node, op, count, nodeLabels, edgeLabels] ←
    fields.members? ["node", "op", "count", "node_labels", "edge_labels"] | none
  some (nodeAdjacency (← Json.required? Json.count? node)
    (← Json.required? (Json.asideVariant? Comparison.ofSymbol?) op)
    (← Json.required? Json.count? count) (← Json.withDefault? ∅ labels? nodeLabels)
    (← Json.withDefault? ∅ labels? edgeLabels))

/-- The constraint that a value inside of `level` levels is. -/
def ofJson? (level : Nat) (value : Json) : Option Constraint := do
  let (kind, fields) ← value.tagged? "kind" level
  if kind == "node_label" then nodeLabelOfJson? fields
  else if kind == "edge_label" then edgeLabelOfJson? fields
  else if kind == "no_edge" then noEdgeOfJson? fields
  else if kind == "node_adjacency" then nodeAdjacencyOfJson? fields
  else none

/-- The constraint that a text is. -/
def ofJsonText? (text : String) : Option Constraint := do ofJson? 0 (← Json.readWhole? text)

end Constraint

end GraphGrammar
