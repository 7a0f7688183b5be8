import Mathlib.Data.Sym.Sym2
import GraphGrammar.Graph.Basic
import GraphGrammar.Proofs.Graph.Counting
import GraphGrammar.Proofs.Lists

/-!
# Edges without direction

The order of the endpoints of an edge does not matter. Two lists of edges are the edges of one
undirected graph when they agree up to order and direction, that is, when between any two nodes they
have the same labels.

## Main definitions

* `GraphGrammar.Bond`, `GraphGrammar.Edge.bond` — an edge without direction.

## Main results

* `GraphGrammar.count_bond` — counting edges without direction.
* `GraphGrammar.GraphView.labelsBetween_toGraph` — the edges of a view, listed once each.
-/

namespace GraphGrammar

/-- An edge without direction: its endpoints and its label. -/
abbrev Bond := Sym2 Nat × String

/-- An edge without the order of its endpoints. -/
def Edge.bond (e : Edge) : Bond := (s(e.source, e.target), e.label)

/-- The edge with every node `v` replaced by `f v`. -/
def Bond.map (f : Nat → Nat) (b : Bond) : Bond := (b.1.map f, b.2)

@[simp]
theorem Bond.map_mk (f : Nat → Nat) (a b : Nat) (l : String) :
    Bond.map f (s(a, b), l) = (s(f a, f b), l) := rfl

theorem Bond.map_id (b : Bond) : b.map (fun v => v) = b := by
  rw [Bond.map, Sym2.map_id']
  rfl

theorem Edge.connects_iff {e : Edge} {a b : Nat} :
    e.connects a b = true ↔ s(e.source, e.target) = s(a, b) := by
  simp [Edge.connects]

/-- The labels of the edges between two nodes. -/
def labelsAmong (edges : List Edge) (a b : Nat) : List String :=
  (edges.filter (·.connects a b)).map (·.label)

theorem count_bond (edges : List Edge) (a b : Nat) (l : String) :
    (edges.map Edge.bond).count (s(a, b), l) = (labelsAmong edges a b).count l := by
  rw [labelsAmong, List.count_eq_countP, List.count_eq_countP, List.countP_map, List.countP_map,
    List.countP_filter]
  refine List.countP_congr fun e _ => ?_
  simp only [Function.comp_apply, Edge.bond, beq_iff_eq, Prod.mk.injEq, Bool.and_eq_true,
    ← Edge.connects_iff]
  exact and_comm

theorem labelsAmong_comm (edges : List Edge) (a b : Nat) :
    labelsAmong edges a b = labelsAmong edges b a := by
  rw [labelsAmong, labelsAmong]
  simp only [Graph.connects_comm _ a b]

theorem labelsAmong_append (edges edges' : List Edge) (a b : Nat) :
    labelsAmong (edges ++ edges') a b = labelsAmong edges a b ++ labelsAmong edges' a b := by
  rw [labelsAmong, List.filter_append, List.map_append]
  rfl

/-- Edges none of which joins the two nodes. -/
theorem labelsAmong_eq_nil {edges : List Edge} {a b : Nat}
    (h : ∀ e ∈ edges, ¬(e.source = a ∧ e.target = b) ∧ ¬(e.source = b ∧ e.target = a)) :
    labelsAmong edges a b = [] := by
  rw [labelsAmong, List.map_eq_nil_iff, List.filter_eq_nil_iff]
  intro e he hconnects
  have hends := Edge.connects_iff.mp hconnects
  rw [Sym2.eq_iff] at hends
  exact hends.elim (h e he).1 (h e he).2

/-- Edges around nodes that are not kept are not between nodes that are. -/
theorem labelsAmong_filter {edges : List Edge} {keep : Nat → Bool} {a b : Nat} (ha : keep a = true)
    (hb : keep b = true) :
    labelsAmong (edges.filter fun e => keep e.source && keep e.target) a b =
      labelsAmong edges a b := by
  rw [labelsAmong, labelsAmong, List.filter_filter]
  refine congrArg _ (List.filter_congr fun e _ => ?_)
  rw [Bool.and_eq_left_iff_imp]
  intro hconnects
  have hends := Edge.connects_iff.mp hconnects
  rw [Sym2.eq_iff] at hends
  rw [Bool.and_eq_true]
  rcases hends with ⟨hs, ht⟩ | ⟨hs, ht⟩
  · exact hs ▸ ht ▸ ⟨ha, hb⟩
  · exact hs ▸ ht ▸ ⟨hb, ha⟩

/-- Edges keep their labels when their nodes are sent elsewhere one to one. -/
theorem labelsAmong_mapNodes {edges : List Edge} {f : Nat → Nat} {p : Nat → Prop}
    (hinj : ∀ {u v : Nat}, p u → p v → f u = f v → u = v)
    (hedges : ∀ e ∈ edges, p e.source ∧ p e.target) {a b : Nat} (ha : p a) (hb : p b) :
    labelsAmong (edges.map (Edge.mapNodes f)) (f a) (f b) = labelsAmong edges a b := by
  have hiff : ∀ {x y}, p x → p y → (f x = f y ↔ x = y) := fun hx hy =>
    ⟨hinj hx hy, fun heq => heq ▸ rfl⟩
  rw [labelsAmong, labelsAmong, List.filter_map, List.map_map]
  have hfilter : edges.filter ((fun e => e.connects (f a) (f b)) ∘ Edge.mapNodes f) =
      edges.filter fun e => e.connects a b := by
    refine List.filter_congr fun e he => ?_
    obtain ⟨hs, ht⟩ := hedges e he
    rw [Bool.eq_iff_iff, Function.comp_apply, Edge.connects_iff, Edge.connects_iff, Sym2.eq_iff,
      Sym2.eq_iff]
    simp only [Edge.mapNodes, hiff hs ha, hiff ht hb, hiff hs hb, hiff ht ha]
  rw [hfilter]
  rfl

theorem Graph.view_label (g : Graph) (v : Nat) : g.view.label v = g.labels.getD v "" := by
  simp [view, Array.getD_eq_getD_getElem?, List.getD_eq_getElem?_getD]

theorem Graph.labelsBetween_view (g : Graph) (a b : Nat) :
    g.view.labelsBetween a b = labelsAmong g.edges a b := by
  rw [GraphView.labelsBetween, view_incident, labelsAmong, List.filter_filterMap,
    List.map_filterMap, ← List.filterMap_eq_map', List.filterMap_filter]
  refine List.filterMap_congr fun e _ => ?_
  simp only [Edge.seenFrom, Edge.touches, Edge.other, Edge.connects]
  by_cases hs : e.source = a <;> by_cases ht : e.target = a <;> by_cases hs' : e.source = b <;>
    by_cases ht' : e.target = b <;> simp_all

namespace GraphView

variable (t : GraphView)

/-- The edges listed at a node, at their smaller endpoints. -/
theorem labelsAmong_edgeList_of_le {a b : Nat} (hle : a ≤ b) :
    labelsAmong t.edgeList a b = t.labelsBetween a b := by
  have hround : ∀ v, labelsAmong ((t.incident v).filterMap fun e =>
      if v ≤ e.node then some ⟨v, e.node, e.label⟩ else none) a b =
      if v = a then t.labelsBetween a b else [] := by
    intro v
    rw [labelsAmong, List.filter_filterMap, List.map_filterMap, labelsBetween]
    split
    · next hva =>
      subst hva
      rw [← List.filterMap_eq_map', List.filterMap_filter]
      refine List.filterMap_congr fun e _ => ?_
      by_cases hb : e.node = b
      · simp [hb, hle, Edge.connects]
      · by_cases hle' : v ≤ e.node
        · have hne : v = b → ¬e.node = v := by omega
          simpa [hle', Edge.connects, hb] using hne
        · simp [hle', hb]
    · next hva =>
      refine List.filterMap_eq_nil_iff.mpr fun e _ => ?_
      by_cases hle' : v ≤ e.node
      · have hne : v = b → ¬e.node = a := by omega
        simpa [hle', Edge.connects, hva] using hne
      · simp [hle']
  have hsplit : labelsAmong t.edgeList a b = (List.range t.nodeCount).flatMap fun v =>
      if v = a then t.labelsBetween a b else [] := by
    rw [labelsAmong, edgeList, List.filter_flatMap, List.map_flatMap]
    exact List.flatMap_congr fun v _ => hround v
  rw [hsplit]
  rcases Nat.lt_or_ge a t.nodeCount with ha | ha
  · rw [flatMap_eq_apply List.nodup_range (List.mem_range.mpr ha) fun v _ hv => if_neg hv,
      if_pos rfl]
  · rw [List.flatMap_eq_nil_iff.mpr]
    · refine (List.eq_nil_iff_forall_not_mem.mpr fun l hl => ?_).symm
      have := (t.lt_of_mem_labelsBetween hl).1
      omega
    · intro v hv
      have := List.mem_range.mp hv
      exact if_neg (by omega)

/-- **The list of edges** has between any two nodes the edges that they see. -/
theorem labelsAmong_edgeList (a b : Nat) :
    (labelsAmong t.edgeList a b).Perm (t.labelsBetween a b) := by
  rcases Nat.le_total a b with h | h
  · exact List.Perm.of_eq (t.labelsAmong_edgeList_of_le h)
  · rw [labelsAmong_comm, t.labelsAmong_edgeList_of_le h]
    exact t.labelsBetween_perm_swap b a

/-- **A view as a graph** has the edges of the view. -/
theorem labelsBetween_toGraph (a b : Nat) :
    (t.toGraph.view.labelsBetween a b).Perm (t.labelsBetween a b) := by
  rw [Graph.labelsBetween_view]
  exact t.labelsAmong_edgeList a b

@[simp]
theorem nodeCount_toGraph : t.toGraph.nodeCount = t.nodeCount := by
  simp [Graph.nodeCount, toGraph]

end GraphView

theorem Graph.labelsAmong_edgeList_view (g : Graph) (u v : Nat) :
    labelsAmong g.view.edgeList u v = labelsAmong g.edges u v := by
  rcases Nat.le_total u v with hle | hle
  · rw [GraphView.labelsAmong_edgeList_of_le _ hle, labelsBetween_view]
  · rw [labelsAmong_comm, GraphView.labelsAmong_edgeList_of_le _ hle, labelsBetween_view,
      labelsAmong_comm]

end GraphGrammar
