import Mathlib.Data.Rat.Cast.Order
import Mathlib.Tactic.Ring
import GraphGrammar.Pattern.HalfEdges
import GraphGrammar.Proofs.Matching.Judgement

/-!
# Half edges as rational numbers

A constraint on the edges around a node counts an edge to another node as one and a self-loop as one
half, and compares the sum with a bound. What is computed are half units, read off the edges listed
at the node, and the bound is doubled. Where the double is out of range, the limit of counts stands
for it. In a graph that has less than half as many edges as the limit, all half units together are
below the limit, and so they compare with it as they do with the double.

## Main definitions

* `GraphGrammar.Comparison.Relates` — comparisons of rational numbers.
* `GraphGrammar.Constraint.occurrencesAt` — the number of edges with self-loops as halves.

## Main results

* `GraphGrammar.Constraint.halfEdgeCount_eq_lengths` — half units, counted among all edges.
* `GraphGrammar.Constraint.halfEdgeCount?_eq` — no sum is out of range.
* `GraphGrammar.Constraint.compareAround_relates_occurrences` — the judgement compares rational
  numbers. -/

namespace GraphGrammar

/-! ### Comparisons -/

namespace Comparison

/-- A comparison of two rational numbers. -/
def Relates (op : Comparison) (x y : ℚ) : Prop :=
  match op with
  | eq => x = y
  | lt => x < y
  | le => x ≤ y
  | gt => y < x
  | ge => y ≤ x

instance (op : Comparison) (x y : ℚ) : Decidable (op.Relates x y) :=
  match op with
  | eq => inferInstanceAs (Decidable (x = y))
  | lt => inferInstanceAs (Decidable (x < y))
  | le => inferInstanceAs (Decidable (x ≤ y))
  | gt => inferInstanceAs (Decidable (y < x))
  | ge => inferInstanceAs (Decidable (y ≤ x))

theorem compare_iff_relates {op : Comparison} {a b : Nat} :
    op.compare a b = true ↔ op.Relates a b := by
  cases op <;> simp [compare, Relates]

/-- Numbers compare as their doubles do. -/
theorem relates_double_iff {op : Comparison} {x y : ℚ} :
    op.Relates (2 * x) (2 * y) ↔ op.Relates x y := by
  cases op <;> simp [Relates]

/-- A number below a limit compares with the limit as with all greater numbers. -/
theorem compare_min_of_lt {op : Comparison} {a b limit : Nat} (h : a < limit) :
    op.compare a (min b limit) = op.compare a b := by
  rw [Bool.eq_iff_iff]
  cases op <;> simp only [compare, beq_iff_eq, decide_eq_true_eq] <;> omega

end Comparison

theorem doubleCount_eq_min (n : Nat) : doubleCount n = min (2 * n) countLimit := by
  rw [doubleCount, countLimit]
  split <;> omega

/-- Counts are added up as long as their sum stays within the limit. -/
theorem foldlM_addCounts? {α : Type} {l : List α} {size : α → Nat} {start : Nat}
    (h : start + (l.map size).sum ≤ countLimit) :
    l.foldlM (fun n a => addCounts? n (size a)) start = some (start + (l.map size).sum) := by
  induction l generalizing start with
  | nil => rfl
  | cons a l ih =>
    rw [List.map_cons, List.sum_cons, ← Nat.add_assoc] at h ⊢
    have hstep : addCounts? start (size a) = some (start + size a) := by
      rw [addCounts?, if_pos (Nat.le_trans (Nat.le_add_right _ _) h)]
    rw [List.foldlM_cons, hstep]
    exact ih h

/-! ### Edges of the graph -/

namespace GraphView

variable (t : GraphView)

theorem length_edgeList : t.edgeList.length = t.edgeCount := t.isIso_toGraph.edgeCount_eq

/-- What a node sees are the edges of the graph that touch it. -/
theorem incident_perm_edgeList {v : Nat} (hv : v < t.nodeCount) :
    (t.incident v).Perm (t.edgeList.filterMap (·.seenFrom v)) := by
  have hv' : v < t.toGraph.view.nodeCount := t.isIso_toGraph.nodeCount_eq ▸ hv
  have hperm := t.isIso_toGraph.incident_perm hv'
  rw [Graph.view_incident, List.map_id'' (fun _ => rfl)] at hperm
  exact hperm.symm

end GraphView

namespace Constraint

variable {t : GraphView} {v : Nat} (nodeLabels edgeLabels : SortedSet String)

/-- The edges of the graph at `v` whose labels and whose endpoints opposite to `v` pass the
filters. -/
def passingAt (t : GraphView) (v : Nat) (nodeLabels edgeLabels : SortedSet String) : List Edge :=
  t.edgeList.filter fun e =>
    e.touches v && passes edgeLabels e.label && passes nodeLabels (t.label (e.other v))

/-- Those of them that lead to another node. -/
def joiningAt (t : GraphView) (v : Nat) (nodeLabels edgeLabels : SortedSet String) : List Edge :=
  (passingAt t v nodeLabels edgeLabels).filter fun e => !e.isSelfLoop

/-- Those of them that are self-loops. -/
def loopsAt (t : GraphView) (v : Nat) (nodeLabels edgeLabels : SortedSet String) : List Edge :=
  (passingAt t v nodeLabels edgeLabels).filter Edge.isSelfLoop

/-- The number of edges at `v` that pass the filters, in which a self-loop is one half. -/
def occurrencesAt (t : GraphView) (v : Nat) (nodeLabels edgeLabels : SortedSet String) : ℚ :=
  (joiningAt t v nodeLabels edgeLabels).length + 1 / 2 * (loopsAt t v nodeLabels edgeLabels).length

/-- Every edge that passes the filters leads to another node or is a self-loop. -/
theorem length_joiningAt_add_length_loopsAt :
    (joiningAt t v nodeLabels edgeLabels).length + (loopsAt t v nodeLabels edgeLabels).length =
      (passingAt t v nodeLabels edgeLabels).length := by
  rw [joiningAt, loopsAt, Nat.add_comm, ← List.length_append]
  exact (List.filter_append_perm Edge.isSelfLoop _).length_eq

theorem length_passingAt_le : (passingAt t v nodeLabels edgeLabels).length ≤ t.edgeCount :=
  t.length_edgeList ▸ List.length_filter_le _ _

/-- What is counted around a node is counted among the edges of the graph. -/
theorem countP_incident (hv : v < t.nodeCount) (counts : Incidence → Bool) :
    (t.incident v).countP counts =
      t.edgeList.countP fun e => e.touches v && counts ⟨e.other v, e.label⟩ := by
  rw [(t.incident_perm_edgeList hv).countP_eq, List.countP_filterMap]
  refine List.countP_congr fun e _ => ?_
  rw [Edge.seenFrom]
  by_cases he : e.touches v = true <;> simp [he]

theorem other_beq {e : Edge} (h : e.touches v = true) : (e.other v == v) = e.isSelfLoop := by
  simp only [Edge.touches, Bool.or_eq_true, beq_iff_eq] at h
  rw [Bool.eq_iff_iff, beq_iff_eq, Edge.isSelfLoop, beq_iff_eq, Edge.other]
  split <;> omega

/-- **The half units** are two for each edge to another node and one for each self-loop. -/
theorem halfEdgeCount_eq_lengths (hv : v < t.nodeCount) :
    halfEdgeCount t v nodeLabels edgeLabels =
      2 * (joiningAt t v nodeLabels edgeLabels).length +
        (loopsAt t v nodeLabels edgeLabels).length := by
  rw [halfEdgeCount_eq, halves, countP_incident hv, countP_incident hv, joiningAt, loopsAt,
    passingAt, List.filter_filter, List.filter_filter, ← List.countP_eq_length_filter,
    ← List.countP_eq_length_filter]
  refine congrArg₂ (fun joining loops => 2 * joining + loops) (List.countP_congr fun e _ => ?_)
    (List.countP_congr fun e _ => ?_)
  all_goals
    by_cases he : e.touches v = true
    · simp [he, bne, other_beq he, and_comm]
    · simp [he]

/-- There are at most twice as many half units as edges. -/
theorem halfEdgeCount_le (hv : v < t.nodeCount) :
    halfEdgeCount t v nodeLabels edgeLabels ≤ 2 * t.edgeCount := by
  have hsplit := length_joiningAt_add_length_loopsAt (t := t) (v := v) nodeLabels edgeLabels
  have hle := length_passingAt_le (t := t) (v := v) nodeLabels edgeLabels
  rw [halfEdgeCount_eq_lengths nodeLabels edgeLabels hv]
  omega

/-- **No sum on the way is out of range** if there are not too many edges. -/
theorem halfEdgeCount?_eq (hv : v < t.nodeCount) (hedges : 2 * t.edgeCount ≤ countLimit) :
    halfEdgeCount? t v nodeLabels edgeLabels =
      some (halfEdgeCount t v nodeLabels edgeLabels) := by
  have hincident : t.incident? v = some (t.incident v) := by
    rw [GraphView.incident?, if_pos (by simp [hv])]
  have hsum := (halfEdgeCount_le nodeLabels edgeLabels hv).trans hedges
  rw [halfEdgeCount, foldl_halves] at hsum ⊢
  rw [halfEdgeCount?, hincident]
  exact foldlM_addCounts? hsum

theorem cast_halfEdgeCount (hv : v < t.nodeCount) :
    (halfEdgeCount t v nodeLabels edgeLabels : ℚ) =
      2 * occurrencesAt t v nodeLabels edgeLabels := by
  rw [halfEdgeCount_eq_lengths nodeLabels edgeLabels hv, occurrencesAt]
  push_cast
  ring

/-- **The judgement on the number of edges around a node**, in a graph with fewer than `2 ^ 63 - 1`
edges. The half units are counted without leaving the range of counts, and whether their number
compares with the doubled bound, or with the limit if that is out of range, is whether the number of
edges compares with the bound, with a self-loop as one half. -/
theorem compareAround_relates_occurrences (hedges : t.edgeCount < 2 ^ 63 - 1) (hv : v < t.nodeCount)
    (op : Comparison) (count : Nat) :
    compareAround? t v op count nodeLabels edgeLabels =
        some (decide (op.Relates (occurrencesAt t v nodeLabels edgeLabels) count)) ∧
      ∀ (node : Nat) (image : Nat → Option Nat), image node = some v →
        (nodeAdjacency node op count nodeLabels edgeLabels).holds? t image =
          some (decide (op.Relates (occurrencesAt t v nodeLabels edgeLabels) count)) := by
  have hlimit : 2 * t.edgeCount < countLimit := by
    rw [countLimit]
    omega
  have hbelow := (halfEdgeCount_le nodeLabels edgeLabels hv).trans_lt hlimit
  have hverdict :
      op.compare (halfEdgeCount t v nodeLabels edgeLabels) (min (2 * count) countLimit) =
        decide (op.Relates (occurrencesAt t v nodeLabels edgeLabels) count) := by
    rw [Comparison.compare_min_of_lt hbelow, Bool.eq_iff_iff, Comparison.compare_iff_relates,
      cast_halfEdgeCount nodeLabels edgeLabels hv, Nat.cast_mul, Nat.cast_ofNat,
      Comparison.relates_double_iff, decide_eq_true_iff]
  constructor
  · rw [compareAround?, halfEdgeCount?_eq nodeLabels edgeLabels hv hlimit.le, Option.map_some,
      doubleCount_eq_min, hverdict]
  · intro node image himage
    have hincident : (t.incident? v).isNone = false := by
      rw [GraphView.incident?, if_pos (by simp [hv])]
      rfl
    simp [holds?, readsOutside, holds, himage, hincident, hverdict]

/-- A node with a self-loop, three edges to a second node and one to a third. -/
def hubWithLoop : Graph :=
  ⟨["a", "b", "c"],
    [⟨0, 1, "-"⟩, ⟨0, 0, "-"⟩, ⟨1, 0, "-"⟩, ⟨0, 1, "="⟩, ⟨2, 0, "-"⟩], by decide⟩

/-- Two of the edges and the self-loop pass the filters, which makes two and a half: less than a
bound whose double is out of range, more than two, and not as many as three. -/
theorem compareAround_relates_occurrences_hubWithLoop :
    let around := fun op count => compareAround? hubWithLoop.view 0 op count
      (SortedSet.ofList ["a", "b"]) (SortedSet.ofList ["-"])
    hubWithLoop.view.edgeCount < 2 ^ 63 - 1 ∧ 0 < hubWithLoop.view.nodeCount ∧
      around .lt 9223372036854775808 = some true ∧ around .gt 2 = some true ∧
      around .ge 3 = some false := by
  intro around
  have hedges : hubWithLoop.view.edgeCount < 2 ^ 63 - 1 := by decide
  have hv : 0 < hubWithLoop.view.nodeCount := by decide
  have hexact : ∀ op count, around op count = some (decide (op.Relates _ count)) := fun op count =>
    (compareAround_relates_occurrences _ _ hedges hv op count).1
  exact ⟨hedges, hv, (hexact _ _).trans (by decide +kernel), (hexact _ _).trans (by decide +kernel),
    (hexact _ _).trans (by decide +kernel)⟩

end Constraint

end GraphGrammar
