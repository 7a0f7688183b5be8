/-!
# Problems of rules

The structural problems of a rule form a set, kept as the bits of one word. The empty set means
that the rule is consistent.

## Main definitions

* `GraphGrammar.Problem` — the problems that a rule can have.
* `GraphGrammar.ProblemSet` — a set of problems, with union, inclusion and its text.
-/

namespace GraphGrammar

/-- A structural problem of a rule. -/
inductive Problem where
  /-- The rule has no id, or an empty one. -/
  | noRuleId
  /-- The role of an edge does not fit the roles of its endpoints. -/
  | wrongEdgeRole
  /-- An edge joins a node that does not exist. -/
  | edgeEndpointOutOfRange
  /-- The source of a directive is not a left-only node. -/
  | directiveSourceNotLeftOnly
  /-- The paste target of a directive is not on the right side. -/
  | directiveTargetNotRight
  /-- The target filter of a directive lists a node that does not exist. -/
  | directiveFilterOutOfRange
  /-- A constraint refers to a node that is not on the left side. -/
  | constraintNodeNotLeft
  /-- A label-change node has no right label. -/
  | labelChangeWithoutRightLabel
deriving DecidableEq

namespace Problem

/-- The problems in the order of their bits. -/
def all : List Problem :=
  [noRuleId, wrongEdgeRole, edgeEndpointOutOfRange, directiveSourceNotLeftOnly,
    directiveTargetNotRight, directiveFilterOutOfRange, constraintNodeNotLeft,
    labelChangeWithoutRightLabel]

/-- The bit of a problem. -/
def bit : Problem → UInt32
  | noRuleId => 1
  | wrongEdgeRole => 2
  | edgeEndpointOutOfRange => 4
  | directiveSourceNotLeftOnly => 8
  | directiveTargetNotRight => 16
  | directiveFilterOutOfRange => 32
  | constraintNodeNotLeft => 64
  | labelChangeWithoutRightLabel => 128

/-- The name of a problem. -/
def name : Problem → String
  | noRuleId => "no-rule-id"
  | wrongEdgeRole => "wrong-edge-context"
  | edgeEndpointOutOfRange => "edge-endpoint-out-of-range"
  | directiveSourceNotLeftOnly => "copy-and-paste-source-not-left-only"
  | directiveTargetNotRight => "copy-and-paste-target-not-right"
  | directiveFilterOutOfRange => "copy-and-paste-filter-out-of-range"
  | constraintNodeNotLeft => "constraint-node-not-left"
  | labelChangeWithoutRightLabel => "label-change-without-right-label"

end Problem

/-- A set of problems as the bits of one word. Bits that belong to no problem are kept. -/
structure ProblemSet where
  /-- The bits of the set. -/
  bits : UInt32
deriving DecidableEq

namespace ProblemSet

/-- No problem. -/
def empty : ProblemSet := ⟨0⟩

/-- The set of one problem. -/
def single (p : Problem) : ProblemSet := ⟨p.bit⟩

/-- The union of two sets. -/
def union (a b : ProblemSet) : ProblemSet := ⟨a.bits ||| b.bits⟩

/-- The set of the problems of a list. -/
def ofList (problems : List Problem) : ProblemSet :=
  problems.foldl (fun s p => s.union (single p)) empty

/-- Whether no bit is set. -/
def isEmpty (a : ProblemSet) : Bool := a.bits == 0

/-- Whether every bit of `b` is set in `a`. -/
def contains (a b : ProblemSet) : Bool := a.bits &&& b.bits == b.bits

/-- The names of the problems in the set, in the order of their bits. -/
def names (a : ProblemSet) : List String :=
  (Problem.all.filter fun p => a.contains (single p)).map Problem.name

/-- The text of a set: its names, or one word for the empty set. -/
def text (a : ProblemSet) : String :=
  if a.isEmpty then "consistent" else "|".intercalate a.names

end ProblemSet

end GraphGrammar
