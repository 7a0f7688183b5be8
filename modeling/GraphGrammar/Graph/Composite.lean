import GraphGrammar.Graph.Basic

/-!
# Several graphs as one target

Several hosts are read as one graph, their disjoint union: the nodes of the first host come first,
then those of the second, and so on. No edge joins two hosts, and a host may be empty. A host is
anything that is read as a graph, also a composition of other hosts.

## Main definitions

* `GraphGrammar.GraphView.disjointUnion` — two views as one.
* `GraphGrammar.Composite` — a list of hosts, and its view.
* `GraphGrammar.Composite.toLocal`, `GraphGrammar.Composite.toGlobal` — the two numberings.
-/

namespace GraphGrammar

namespace GraphView

/-- The edge with its opposite endpoint moved up by `n`. -/
def shiftIncidence (n : Nat) (e : Incidence) : Incidence := ⟨n + e.node, e.label⟩

/-- The graph without nodes, whose edges are read as none everywhere. -/
def empty : GraphView where
  nodeCount := 0
  edgeCount := 0
  label _ := ""
  incident _ := []
  lenient := true
  mem_lt h := nomatch h
  count_comm _ _ _ := rfl
  degree_sum := rfl

/-- The edges around a node of a disjoint union. -/
def unionIncident (g h : GraphView) (v : Nat) : List Incidence :=
  if v < g.nodeCount then g.incident v
  else (h.incident (v - g.nodeCount)).map (shiftIncidence g.nodeCount)

theorem mem_unionIncident_lt {g h : GraphView} {v : Nat} {e : Incidence}
    (he : e ∈ unionIncident g h v) :
    v < g.nodeCount + h.nodeCount ∧ e.node < g.nodeCount + h.nodeCount := by
  rw [unionIncident] at he
  split at he
  · have := g.mem_lt he
    omega
  · obtain ⟨e', he', rfl⟩ := List.mem_map.mp he
    have := h.mem_lt he'
    simp only [shiftIncidence]
    omega

theorem count_map_shiftIncidence (n b : Nat) (l : String) (es : List Incidence) :
    (es.map (shiftIncidence n)).count ⟨b, l⟩ = if n ≤ b then es.count ⟨b - n, l⟩ else 0 := by
  induction es with
  | nil => simp
  | cons e es ih =>
    have key : shiftIncidence n e = ⟨b, l⟩ ↔ n ≤ b ∧ e = ⟨b - n, l⟩ := by
      obtain ⟨node, label⟩ := e
      simp only [shiftIncidence, Incidence.mk.injEq]
      constructor
      · rintro ⟨h, hl⟩
        exact ⟨by omega, by omega, hl⟩
      · rintro ⟨h, h', hl⟩
        exact ⟨by omega, hl⟩
    simp only [List.map_cons, List.count_cons, ih, beq_iff_eq, key]
    by_cases h : n ≤ b <;> simp [h]

theorem count_unionIncident_comm (g h : GraphView) (a b : Nat) (l : String) :
    (unionIncident g h a).count ⟨b, l⟩ = (unionIncident g h b).count ⟨a, l⟩ := by
  have outside : ∀ {u v : Nat}, g.nodeCount ≤ v → (g.incident u).count ⟨v, l⟩ = 0 := fun hv =>
    List.count_eq_zero.mpr fun hmem => Nat.not_lt.mpr hv (g.mem_lt hmem).2
  rw [unionIncident, unionIncident]
  split <;> split
  · exact g.count_comm a b l
  · next ha hb =>
    rw [outside (by omega), count_map_shiftIncidence, if_neg (by omega)]
  · next ha hb =>
    rw [outside (by omega), count_map_shiftIncidence, if_neg (by omega)]
  · next ha hb =>
    rw [count_map_shiftIncidence, count_map_shiftIncidence, if_pos (by omega), if_pos (by omega)]
    exact h.count_comm _ _ l

theorem degree_sum_unionIncident (g h : GraphView) :
    sumBelow (g.nodeCount + h.nodeCount) (fun v =>
      (unionIncident g h v).length + (unionIncident g h v).countP (·.node == v)) =
      2 * (g.edgeCount + h.edgeCount) := by
  rw [sumBelow_append, Nat.mul_add, ← g.degree_sum, ← h.degree_sum]
  congr 1
  · refine sumBelow_congr fun v hv => ?_
    rw [unionIncident, if_pos hv]
  · refine sumBelow_congr fun v _ => ?_
    rw [unionIncident, if_neg (by omega), Nat.add_sub_cancel_left, List.length_map,
      List.countP_map]
    congr 1
    refine List.countP_congr fun e _ => ?_
    simp [shiftIncidence]

/-- Two graphs read as one, the nodes of the second after those of the first. -/
def disjointUnion (g h : GraphView) : GraphView where
  nodeCount := g.nodeCount + h.nodeCount
  edgeCount := g.edgeCount + h.edgeCount
  label v := if v < g.nodeCount then g.label v else h.label (v - g.nodeCount)
  incident := unionIncident g h
  lenient := h.lenient
  mem_lt := mem_unionIncident_lt
  count_comm := count_unionIncident_comm g h
  degree_sum := degree_sum_unionIncident g h

end GraphView

/-- Several hosts read as one graph. -/
structure Composite where
  /-- The hosts in order. -/
  hosts : List GraphView

namespace Composite

/-- The composition with one more host, which comes last. -/
def push (c : Composite) (g : GraphView) : Composite := ⟨c.hosts ++ [g]⟩

/-- The hosts as one graph. The edges of a number that is no node are read as none. -/
def view (c : Composite) : GraphView := c.hosts.foldr GraphView.disjointUnion GraphView.empty

/-- The host and the local number of a node. -/
def locate : List GraphView → Nat → Option (Nat × Nat)
  | [], _ => none
  | g :: hosts, v =>
    if v < g.nodeCount then some (0, v)
    else (locate hosts (v - g.nodeCount)).map fun place => (place.1 + 1, place.2)

/-- The number of nodes before the host `i`. -/
def offset (hosts : List GraphView) (i : Nat) : Nat :=
  ((hosts.take i).map GraphView.nodeCount).foldl (· + ·) 0

/-- The host and the local number of a node of the composition. -/
def toLocal (c : Composite) (v : Nat) : Option (Nat × Nat) := locate c.hosts v

/-- The number that the node `v` of the host `i` has in the composition. -/
def toGlobal (c : Composite) (i v : Nat) : Option Nat := do
  let g ← c.hosts[i]?
  if v < g.nodeCount then some (offset c.hosts i + v) else none

end Composite

end GraphGrammar
