import GraphGrammar.Codec.ConstraintJson
import GraphGrammar.Proofs.Json.Decode

/-!
# Constraints are read as they were written

A constraint whose numbers have 64 bits is read from its value as it was, whatever its labels, at
any level at which it may nest.

## Main results

* `GraphGrammar.Constraint.ofJson?_toJson` — a constraint is read from its value.
-/

namespace GraphGrammar

theorem LabelPolicy.ofName?_name (policy : LabelPolicy) : ofName? policy.name = some policy := by
  cases policy <;> decide

theorem Comparison.ofSymbol?_symbol (op : Comparison) : ofSymbol? op.symbol = some op := by
  cases op <;> decide

namespace Constraint

/-- The count that a constraint compares with, if it is one on a number of edges. -/
def count : Constraint → Nat
  | nodeAdjacency _ _ count _ _ => count
  | _ => 0

theorem labels?_labelsToJson (labels : SortedSet String) :
    labels? labels.labelsToJson = some labels :=
  Json.set?_map fun _ _ => rfl

theorem canSetAside_labelsToJson {levels : Nat} (h : 0 < levels) (labels : SortedSet String) :
    labels.labelsToJson.canSetAside levels = true :=
  Json.canSetAside_texts h labels.toList

/-- **A constraint** is read from its value. -/
theorem ofJson?_toJson {c : Constraint} {level : Nat} (hlevel : level < 126)
    (hnodes : ∀ v ∈ c.nodes, v < 2 ^ 64) (hcount : c.count < 2 ^ 64) :
    ofJson? level c.toJson = some c := by
  have hlevels : 0 < Json.levelLimit - 1 - level := by
    rw [Json.levelLimit]
    omega
  have hlabels := canSetAside_labelsToJson hlevels
  have hnatural : ∀ {n : Nat}, n < 2 ^ 64 →
      (Json.natural n).canSetAside (Json.levelLimit - 1 - level) = true :=
    Json.canSetAside_natural _
  have htext : ∀ s : String, (Json.text s).canSetAside (Json.levelLimit - 1 - level) = true :=
    fun _ => rfl
  cases c with
  | nodeLabel node labels policy =>
    have hnode : node < 2 ^ 64 := hnodes node (List.mem_cons_self ..)
    rw [ofJson?, toJson, Json.tagged?_record (by simp) (by simp [hnatural hnode, hlabels, htext])]
    simp [nodeLabelOfJson?, Json.members?_record, List.lookup_cons, Json.count?_natural hnode,
      labels?_labelsToJson, LabelPolicy.ofName?_name]
  | edgeLabel a b labels policy =>
    have ha : a < 2 ^ 64 := hnodes a (List.mem_cons_self ..)
    have hb : b < 2 ^ 64 := hnodes b (List.mem_cons_of_mem _ (List.mem_cons_self ..))
    rw [ofJson?, toJson,
      Json.tagged?_record (by simp) (by simp [hnatural ha, hnatural hb, hlabels, htext])]
    simp [edgeLabelOfJson?, Json.members?_record, List.lookup_cons, Json.count?_natural ha,
      Json.count?_natural hb, labels?_labelsToJson, LabelPolicy.ofName?_name]
  | noEdge a b =>
    have ha : a < 2 ^ 64 := hnodes a (List.mem_cons_self ..)
    have hb : b < 2 ^ 64 := hnodes b (List.mem_cons_of_mem _ (List.mem_cons_self ..))
    rw [ofJson?, toJson, Json.tagged?_record (by simp) (by simp [hnatural ha, hnatural hb])]
    simp [noEdgeOfJson?, Json.members?_record, List.lookup_cons, Json.count?_natural ha,
      Json.count?_natural hb]
  | nodeAdjacency node op count nodeLabels edgeLabels =>
    have hnode : node < 2 ^ 64 := hnodes node (List.mem_cons_self ..)
    have hcount : count < 2 ^ 64 := hcount
    rw [ofJson?, toJson,
      Json.tagged?_record (by simp) (by simp [hnatural hnode, hnatural hcount, hlabels, htext])]
    simp [nodeAdjacencyOfJson?, Json.members?_record, List.lookup_cons, Json.count?_natural hnode,
      Json.count?_natural hcount, labels?_labelsToJson, Comparison.ofSymbol?_symbol]

end Constraint

end GraphGrammar
