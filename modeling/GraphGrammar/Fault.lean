import GraphGrammar.Report
import GraphGrammar.SchemaVersion
import GraphGrammar.Rule.Problem

/-!
# What can go wrong

Every operation of the library that can fail says why with a value of one type, the causes below.
What is shown of a cause (its family, code, message and facts) is decided in one place,
`GraphGrammar.Fault.report`.

## Main definitions

* `GraphGrammar.Fault` — the causes.
* `GraphGrammar.Fault.report` — the report of a cause.
-/

namespace GraphGrammar

/-- The written forms that can be unreadable. -/
inductive WrittenForm where
  /-- A graph or a rule as JSON text. -/
  | jsonText
  /-- A graph as bytes. -/
  | bytes
  /-- A configuration as JSON text. -/
  | jsonConfig
  /-- A configuration as YAML text. -/
  | yamlConfig
deriving DecidableEq

/-- The versioned kinds of values. -/
inductive VersionedKind where
  /-- Graphs. -/
  | graph
  /-- Rules. -/
  | rule
deriving DecidableEq

/-- The places of a written rule that refer to its nodes. -/
inductive RuleReference where
  /-- An endpoint of an edge. -/
  | edge
  /-- A node of a constraint. -/
  | constraint
  /-- The source of a directive. -/
  | directiveSource
  /-- The paste target of a directive. -/
  | directiveTarget
  /-- A member of the target filter of a directive. -/
  | directiveFilter
deriving DecidableEq

/-- The name of a place, as reports show it. -/
def RuleReference.name : RuleReference → String
  | edge => "edge"
  | constraint => "constraint"
  | directiveSource => "copy_and_paste.source"
  | directiveTarget => "copy_and_paste.paste_target"
  | directiveFilter => "copy_and_paste.target_filter"

/-- The causes of failure. -/
inductive Fault where
  /-- A graph with `nodes` nodes has no node `node`. -/
  | unknownNode (node nodes : Nat)
  /-- The slot `node` of an arena holds no node. -/
  | deadNode (node : Nat)
  /-- The slot `edge` of an arena holds no edge. -/
  | deadEdge (edge : Nat)
  /-- A node still has `incident` edges and cannot be removed. -/
  | nodeNotIsolated (node incident : Nat)
  /-- A list of `length` entries is no permutation of `nodes` nodes. -/
  | notAPermutation (nodes length : Nat)
  /-- There is no label to draw from. -/
  | emptyLabelPool
  /-- Edges were asked for in a graph without nodes. -/
  | noNodesForEdges
  /-- Edges were asked for in a graph of one node, but no self-loops. -/
  | noEdgeSlot (edges : Nat)
  /-- A constraint refers to a node that a pattern with `nodes` nodes does not have. -/
  | constraintOutOfRange (node nodes : Nat)
  /-- A rule has structural problems. -/
  | inconsistentRule (rule : Option String) (problems : ProblemSet)
  /-- A mapping has not one entry for every node of the left side. -/
  | mappingLength (rule : Option String) (expected found : Nat)
  /-- A mapping sends a node of the left side out of the target. -/
  | imageOutsideTarget (rule : Option String) (patternNode node : Nat)
  /-- A mapping sends two nodes of the left side to one node. -/
  | imageShared (rule : Option String) (node : Nat)
  /-- A rule node that is needed has no image. -/
  | unmappedNode (rule : Option String) (node : Nat)
  /-- A label change has no right label. -/
  | missingRightLabel (rule : Option String) (node : Nat)
  /-- No free edge of the target fits an edge of the left side. -/
  | missingEdge (rule : Option String) (source target : Nat) (label : String)
  /-- A hit belongs to no registered rule. -/
  | unknownPattern (pattern rules : Nat)
  /-- A search for automorphisms may not even find the identity. -/
  | noAutomorphisms
  /-- The separator of a suffix is empty. -/
  | emptySeparator
  /-- A written form could not be read. -/
  | unreadable (form : WrittenForm)
  /-- A written value has a version that is not supported. -/
  | unsupportedSchema (kind : VersionedKind) (found : SchemaVersion)
  /-- A written rule with `nodes` nodes refers to the node `node`, which it does not have. -/
  | danglingReference (place : RuleReference) (node nodes : Nat)
  /-- A JSON text was readable, but its content was refused. -/
  | rejectedContent (cause : Fault)
deriving DecidableEq

namespace Fault

/-- The name shown for a rule that may have no id. -/
def ruleName (rule : Option String) : String := rule.getD "<unnamed>"

/-- A report without hint. -/
def plainReport (family : Family) (code message : String) (facts : List (String × String)) :
    Report :=
  ⟨family, code, message, Context.ofList facts, none⟩

/-- The report of a cause. -/
def report : Fault → Report
  | unknownNode node nodes =>
    plainReport .graph "unknown-node" "node does not exist"
      [("node", toString node), ("nodes", toString nodes)]
  | deadNode node =>
    plainReport .graph "unknown-node" "node does not exist" [("node", toString node)]
  | deadEdge edge =>
    plainReport .graph "unknown-edge" "edge does not exist" [("edge", toString edge)]
  | nodeNotIsolated node incident =>
    plainReport .graph "node-not-isolated" "cannot remove node with incident edges"
      [("node", toString node), ("incident", toString incident)]
  | notAPermutation nodes length =>
    plainReport .graph "invalid-permutation" "not a permutation of the node set"
      [("nodes", toString nodes), ("length", toString length)]
  | emptyLabelPool =>
    plainReport .graph "empty-label-pool"
      "random generator requires at least one node and one edge label" []
  | noNodesForEdges =>
    plainReport .graph "empty-graph" "cannot place edges in a graph without nodes" []
  | noEdgeSlot edges =>
    plainReport .graph "no-edge-slot" "a single node only admits self-loops"
      [("edges", toString edges)]
  | constraintOutOfRange node nodes =>
    plainReport .search "constraint-node-out-of-range"
      "constraint references a node outside the pattern"
      [("node", toString node), ("nodes", toString nodes)]
  | inconsistentRule rule problems =>
    plainReport .application "inconsistent-rule" "rule failed the consistency check"
      [("rule", ruleName rule), ("status", problems.text)]
  | mappingLength rule expected found =>
    plainReport .application "mapping-length" "mapping does not cover the left side"
      [("rule", ruleName rule), ("expected", toString expected), ("found", toString found)]
  | imageOutsideTarget rule patternNode node =>
    plainReport .application "unknown-node" "mapping points outside the target"
      [("rule", ruleName rule), ("pattern_node", toString patternNode), ("node", toString node)]
  | imageShared rule node =>
    plainReport .application "non-injective-mapping" "two pattern nodes share a target node"
      [("rule", ruleName rule), ("node", toString node)]
  | unmappedNode rule node =>
    plainReport .application "unmapped-node" "rule node has no image"
      [("rule", ruleName rule), ("node", toString node)]
  | missingRightLabel rule node =>
    plainReport .application "missing-right-label" "label change without right label"
      [("rule", ruleName rule), ("node", toString node)]
  | missingEdge rule source target label =>
    plainReport .application "missing-edge" "matched edge not present in the target"
      [("rule", ruleName rule), ("source", toString source), ("target", toString target),
        ("label", label)]
  | unknownPattern pattern rules =>
    plainReport .application "unknown-pattern" "no rule registered for pattern"
      [("pattern_id", toString pattern), ("rules", toString rules)]
  | noAutomorphisms =>
    plainReport .config "invalid-max-automorphisms"
      "max_automorphisms must be at least 1 (the identity)" [("max_automorphisms", "0")]
  | emptySeparator =>
    plainReport .config "empty-separator" "preserve_suffix needs a non-empty separator" []
  | unreadable .jsonText =>
    plainReport .writtenForm "deserialize-json" "the text is not of the expected form" []
  | unreadable .bytes =>
    plainReport .writtenForm "deserialize-bytes" "the bytes are not of the expected form" []
  | unreadable .jsonConfig =>
    plainReport .config "parse-json" "the text is not of the expected form" []
  | unreadable .yamlConfig =>
    plainReport .config "parse-yaml" "the text is not of the expected form" []
  | unsupportedSchema kind found =>
    let (noun, supported) := match kind with
      | .graph => ("graph", SchemaVersion.graphForm)
      | .rule => ("rule", SchemaVersion.ruleForm)
    plainReport .writtenForm "schema-mismatch" ("unsupported " ++ noun ++ " schema")
      [("found", found.text), ("supported", supported.text)]
  | danglingReference place node nodes =>
    plainReport .writtenForm "invalid-rule" "node reference out of range"
      [("field", place.name), ("node", toString node), ("nodes", toString nodes)]
  | rejectedContent cause => plainReport .writtenForm "deserialize-json" cause.report.text []

/-- Whether the report of the cause says in words of the library what was wrong. Of text that
could not be read at all it only names the form. -/
def isDescribed : Fault → Bool
  | unreadable _ => false
  | _ => true

end Fault

end GraphGrammar
