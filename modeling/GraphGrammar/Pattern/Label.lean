/-!
# Labels of patterns and of targets

A label of a pattern admits the same label of a target. One label of a pattern may be set aside as
its wildcard, which admits every label. Several labels are admitted at once when each can be given
an admitted label of its own.

## Main definitions

* `GraphGrammar.labelFits` — one label against one label.
* `GraphGrammar.labelsFit` — labels against labels, one to one.
-/

namespace GraphGrammar

/-- Whether the label `required` of a pattern admits the label `found` of a target. -/
def labelFits (wildcard : Option String) (required found : String) : Bool :=
  required == found || wildcard == some required

/-- Whether the labels `required` can be given distinct places among the labels `available`, each
one that it admits. That is so when there are enough labels in all, and enough of each label that
is required literally: wildcards take what is left over. -/
def labelsFit (wildcard : Option String) (required available : List String) : Bool :=
  required.length ≤ available.length &&
    required.all fun l => wildcard == some l || required.count l ≤ available.count l

end GraphGrammar
