import GraphGrammar.Codec.ConstraintJson
import GraphGrammar.Codec.GraphJson
import GraphGrammar.Rule.Basic

/-!
# Rules as JSON texts

A rule is written with its version, its id and its wildcard if it has them, its nodes, edges,
constraints and directives. When a rule is read, its version is checked first, and then that edges,
constraints and directives refer to nodes that exist. Other problems of a rule are no reason to
refuse it.

## Main definitions

* `GraphGrammar.Rule.toJsonText` and `GraphGrammar.Rule.ofJsonText`.
* `GraphGrammar.Rule.references` — the places of a rule that refer to nodes.
* `GraphGrammar.Rerouting.toJson` and `GraphGrammar.Rerouting.ofJsonText?`.
-/

namespace GraphGrammar

/-- A field of an object, if it has a value. -/
def Json.optionalField {α : Type} (name : String) (toJson : α → Json) (value : Option α) :
    List (String × Json) :=
  (value.map fun a => (name, toJson a)).toList

/-! ### Parts of a rule -/

namespace NodeRole

/-- The name of a role. -/
def name : NodeRole → String
  | kept => "context"
  | leftOnly => "left_only"
  | rightOnly => "right_only"
  | labelChange => "label_change"

/-- The role with a name. -/
def ofName? (name : String) : Option NodeRole :=
  [kept, leftOnly, rightOnly, labelChange].find? fun r => r.name == name

end NodeRole

namespace EdgeRole

/-- The name of a role. -/
def name : EdgeRole → String
  | kept => "context"
  | leftOnly => "left_only"
  | rightOnly => "right_only"

/-- The role with a name. -/
def ofName? (name : String) : Option EdgeRole :=
  [kept, leftOnly, rightOnly].find? fun r => r.name == name

end EdgeRole

/-- A node of a rule as a value. -/
def RuleNode.toJson (n : RuleNode) : Json :=
  .record ([("context", .text n.role.name), ("label", .text n.label)] ++
    Json.optionalField "right_label" Json.text n.newLabel)

/-- The node of a rule that a value is. -/
def RuleNode.ofJson? (value : Json) : Option RuleNode := do
  let [role, label, newLabel] ← value.members? ["context", "label", "right_label"] | none
  some ⟨← Json.required? (Json.variant? NodeRole.ofName?) role,
    ← Json.required? Json.text? label,
    ← Json.withDefault? none (Json.nullable? Json.text?) newLabel⟩

/-- An edge of a rule as a value. -/
def RuleEdge.toJson (e : RuleEdge) : Json :=
  .record [("source", .natural e.source), ("target", .natural e.target),
    ("context", .text e.role.name), ("label", .text e.label)]

/-- The edge of a rule that a value is. -/
def RuleEdge.ofJson? (value : Json) : Option RuleEdge := do
  let [source, target, role, label] ←
    value.members? ["source", "target", "context", "label"] | none
  some ⟨← Json.required? Json.count? source, ← Json.required? Json.count? target,
    ← Json.required? (Json.variant? EdgeRole.ofName?) role, ← Json.required? Json.text? label⟩

namespace Rerouting

/-- A directive as a value. -/
def toJson (d : Rerouting) : Json :=
  .record ([("source", .natural d.source), ("paste_target", .natural d.pasteTarget)] ++
    Json.optionalField "target_filter"
      (fun (nodes : SortedSet Nat) => .array (nodes.toList.map Json.natural)) d.targetFilter ++
    Json.optionalField "edge_labels" SortedSet.labelsToJson d.edgeLabels)

/-- The directive that a value is. -/
def ofJson? (value : Json) : Option Rerouting := do
  let [source, pasteTarget, targetFilter, edgeLabels] ←
    value.members? ["source", "paste_target", "target_filter", "edge_labels"] | none
  some ⟨← Json.required? Json.count? source, ← Json.required? Json.count? pasteTarget,
    ← Json.withDefault? none (Json.nullable? (Json.set? Json.count?)) targetFilter,
    ← Json.withDefault? none (Json.nullable? (Json.set? Json.text?)) edgeLabels⟩

/-- The directive that a text is. -/
def ofJsonText? (text : String) : Option Rerouting := do ofJson? (← Json.readWhole? text)

end Rerouting

/-! ### Rules -/

/-- A rule as it was written. -/
structure WrittenRule where
  /-- The version of the form. -/
  version : SchemaVersion
  /-- The rule; its parts may refer to nodes that do not exist. -/
  rule : Rule
deriving DecidableEq

namespace WrittenRule

/-- A written rule as a value. -/
def toJson (w : WrittenRule) : Json :=
  .record ([("schema_version", w.version.toJson)] ++
    Json.optionalField "rule_id" Json.text w.rule.id ++
    Json.optionalField "wildcard" Json.text w.rule.wildcard ++
    [("nodes", .array (w.rule.nodes.map RuleNode.toJson)),
      ("edges", .array (w.rule.edges.map RuleEdge.toJson)),
      ("constraints", .array (w.rule.constraints.map Constraint.toJson)),
      ("copy_and_paste", .array (w.rule.directives.map Rerouting.toJson))])

/-- The written rule that a value is. Its constraints lie inside of two levels. -/
def ofJson? (value : Json) : Option WrittenRule := do
  let [version, id, wildcard, nodes, edges, constraints, directives] ←
    value.members? ["schema_version", "rule_id", "wildcard", "nodes", "edges", "constraints",
      "copy_and_paste"] | none
  some {
    version := ← Json.required? SchemaVersion.ofJson? version
    rule := {
      id := ← Json.withDefault? none (Json.nullable? Json.text?) id
      wildcard := ← Json.withDefault? none (Json.nullable? Json.text?) wildcard
      nodes := ← Json.required? (Json.list? RuleNode.ofJson?) nodes
      edges := ← Json.withDefault? [] (Json.list? RuleEdge.ofJson?) edges
      constraints := ← Json.withDefault? [] (Json.list? (Constraint.ofJson? 2)) constraints
      directives := ← Json.withDefault? [] (Json.list? Rerouting.ofJson?) directives } }

end WrittenRule

namespace Rule

/-- The nodes that the parts of a rule refer to, in the order in which they are checked. -/
def references (r : Rule) : List (RuleReference × Nat) :=
  (r.edges.flatMap fun e => [(.edge, e.source), (.edge, e.target)]) ++
    (r.constraints.flatMap fun c => c.nodes.map (RuleReference.constraint, ·)) ++
    r.directives.flatMap fun d =>
      [(.directiveSource, d.source), (.directiveTarget, d.pasteTarget)] ++
        ((d.targetFilter.map (·.toList)).getD []).map (RuleReference.directiveFilter, ·)

end Rule

/-- The rule that was written. -/
def WrittenRule.accept (w : WrittenRule) : Except Fault Rule :=
  if SchemaVersion.ruleForm.reads w.version then
    match w.rule.references.find? fun reference => w.rule.nodes.length ≤ reference.2 with
    | some (place, node) => .error (.danglingReference place node w.rule.nodes.length)
    | none => .ok w.rule
  else .error (.unsupportedSchema .rule w.version)

namespace Rule

/-- A rule as text. -/
def toJsonText (r : Rule) : String := (WrittenRule.mk .ruleForm r).toJson.pretty

/-- The rule that a text is. -/
def ofJsonText (text : String) : Except Fault Rule :=
  match (do WrittenRule.ofJson? (← Json.readWhole? text)) with
  | none => .error (.unreadable .jsonText)
  | some w => w.accept

end Rule

end GraphGrammar
