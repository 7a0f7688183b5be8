import Mathlib.Data.List.Nodup
import GraphGrammar.Rule.Side

/-!
# The nodes of a side

The nodes of a side are the rule nodes on it, in ascending order, and the number of a node on the
side is its place among them.

## Main definitions

* `GraphGrammar.Rule.isOn`, `GraphGrammar.Rule.labelOn` — the nodes of a side and their labels.

## Main results

* `GraphGrammar.Rule.mem_sideNodes` — the nodes of a side.
* `GraphGrammar.Rule.localNumber?_eq_some_iff` — the two numberings are inverse to each other.
-/

namespace GraphGrammar

namespace Rule

variable {r : Rule}

/-- Whether a rule node is on a side. -/
def isOn (r : Rule) (s : Side) (v : Nat) : Bool := (r.roleOf v).any s.hasNode

/-- The label of a rule node on a side. -/
def labelOn (r : Rule) (s : Side) (v : Nat) : String := (r.nodes[v]?).elim "" s.label

/-- The labels of a side, in the order of its nodes. -/
theorem labels_sideGraph (r : Rule) (s : Side) :
    (r.sideGraph s).labels = (r.sideNodes s).map (r.labelOn s) := rfl

theorem isOn_eq_true_iff {s : Side} {v : Nat} : r.isOn s v = true ↔
    ∃ role, r.roleOf v = some role ∧ s.hasNode role = true := Option.any_eq_true ..

theorem lt_of_isOn {s : Side} {v : Nat} (h : r.isOn s v = true) : v < r.nodes.length := by
  obtain ⟨role, hrole, -⟩ := isOn_eq_true_iff.mp h
  obtain ⟨node, hnode, -⟩ := Option.map_eq_some_iff.mp hrole
  exact (List.getElem?_eq_some_iff.mp hnode).1

theorem nodup_sideNodes (r : Rule) (s : Side) : (r.sideNodes s).Nodup := List.nodup_range.filter _

theorem mem_sideNodes {s : Side} {v : Nat} :
    v ∈ r.sideNodes s ↔ ∃ role, r.roleOf v = some role ∧ s.hasNode role = true := by
  rw [sideNodes, List.mem_filter, List.mem_range, Option.any_eq_true]
  refine and_iff_right_of_imp fun ⟨role, hrole, _⟩ => ?_
  obtain ⟨node, hnode, -⟩ := Option.map_eq_some_iff.mp hrole
  exact (List.getElem?_eq_some_iff.mp hnode).1

theorem localNumber?_eq_some_iff {s : Side} {v i : Nat} :
    r.localNumber? s v = some i ↔ (r.sideNodes s)[i]? = some v := by
  rw [localNumber?, List.idxOf?_eq_some_iff]
  constructor
  · rintro ⟨hi, hv, -⟩
    rw [List.getElem?_eq_getElem hi, hv]
  · intro h
    obtain ⟨hi, hv⟩ := List.getElem?_eq_some_iff.mp h
    refine ⟨hi, hv, fun j hj hjv => ?_⟩
    have := (List.Nodup.getElem_inj_iff (nodup_sideNodes r s)).mp (hjv.trans hv.symm)
    omega

end Rule

end GraphGrammar
