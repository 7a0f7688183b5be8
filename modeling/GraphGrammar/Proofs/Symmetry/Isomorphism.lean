import GraphGrammar.Proofs.Matching.Enumeration
import GraphGrammar.Proofs.Matching.Naturality
import GraphGrammar.Proofs.Matching.Search
import GraphGrammar.Symmetry.Isomorphism

/-!
# The isomorphism test

The test compares numbers and tables that isomorphic graphs share, and then looks for one match of
the first graph in the second one. Such a match leaves nothing over, so that it is an isomorphism.
In the other direction an isomorphism is a match, and the search does not miss all matches.

## Main results

* `GraphGrammar.GraphView.IsIso.isMatch` — isomorphisms are matches.
* `GraphGrammar.GraphView.IsIso.nodeTable_perm` — isomorphic graphs have the same table.
* `GraphGrammar.isIsomorphic_iff` — the test finds out whether there is an isomorphism.
* `GraphGrammar.isIsomorphic_iff_exists_equiv` — the same for bijections between the nodes.
-/

namespace GraphGrammar

variable {f : Nat → Nat} {a b : GraphView}

/-! ### Isomorphisms as matches -/

namespace Pattern

theorem inRange_ofGraph (g : GraphView) : (ofGraph g).inRange = true := rfl

/-- Every graph occurs in itself. -/
theorem isMatch_range (g : GraphView) : (ofGraph g).IsMatch g (List.range g.nodeCount) := by
  have hget : ∀ {v u : Nat}, (List.range g.nodeCount)[v]? = some u → v = u := fun hv => by
    obtain ⟨hlt, heq⟩ := List.getElem?_eq_some_iff.mp hv
    rwa [List.getElem_range] at heq
  refine ⟨List.length_range, List.nodup_range, fun v hv => List.mem_range.mp hv,
    fun hv => ?_, fun hu hv => ?_, fun c hc => absurd hc List.not_mem_nil⟩
  · rw [hget hv]
    exact labelFits_self _ _
  · rw [hget hu, hget hv]
    exact ⟨fun i => i, fun _ _ heq => heq, fun i => labelFits_self _ _⟩

end Pattern

namespace GraphView.IsIso

theorem isMatch (hf : IsIso f a b) :
    (Pattern.ofGraph a).IsMatch b ((List.range a.nodeCount).map f) :=
  (Pattern.isMatch_range a).map hf.liesIn

theorem nodeTable_perm (hf : IsIso f a b) : a.nodeTable.Perm b.nodeTable := by
  have hrow : ∀ v ∈ List.range a.nodeCount, (a.label v, a.degree v, a.selfLoops v) =
      (b.label (f v), b.degree (f v), b.selfLoops (f v)) := fun v hv => by
    have hlt := List.mem_range.mp hv
    rw [hf.label_eq hlt, hf.degree_eq hlt, hf.selfLoops_eq hlt]
  rw [nodeTable, nodeTable, List.map_congr_left hrow]
  exact hf.map_range_perm fun w => (b.label w, b.degree w, b.selfLoops w)

end GraphView.IsIso

/-! ### The test -/

/-- Counting the hits of one pattern, up to the cap. -/
theorem searchOne_countHits (p : Pattern) (order : Option SymmetryOrder) (t : GraphView)
    (maxHits n : Nat) : (searchOne maxHits countHits p order t n).state =
      n + min maxHits (p.occurrences order t).length := by
  have hcount : ∀ (hits : List Hit) (n : Nat),
      hits.foldl (fun n hit => (countHits n hit).1) n = n + hits.length := by
    intro hits n
    induction hits generalizing n with
    | nil => rfl
    | cons hit hits ih =>
      rw [List.foldl_cons, ih, List.length_cons, countHits]
      omega
  rw [searchOne, searchPattern_fst_eq, untilHalted_deliver_of_proceed fun _ _ _ => rfl]
  dsimp only
  rw [hcount, List.length_take, Pattern.hits, List.length_map]

/-- **The isomorphism test** succeeds for isomorphic graphs only, and for all of them. -/
theorem isIsomorphic_iff : isIsomorphic a b = true ↔ ∃ f, GraphView.IsIso f a b := by
  have hfound : ((searchOne 1 countHits (Pattern.ofGraph a) none b 0).state == 1) = true ↔
      ∃ m, (Pattern.ofGraph a).IsMatch b m := by
    simp only [beq_iff_eq, searchOne_countHits,
      ← Pattern.mem_occurrences_iff (Pattern.inRange_ofGraph a),
      ← List.length_pos_iff_exists_mem]
    omega
  rw [isIsomorphic, Bool.and_eq_true, hfound]
  simp only [Bool.and_eq_true, beq_iff_eq, List.isPerm_iff]
  constructor
  · rintro ⟨⟨⟨hnodes, hedges⟩, -⟩, m, hm⟩
    exact ⟨_, Pattern.isIso_of_isMatch hm hnodes hedges⟩
  · rintro ⟨f, hf⟩
    exact ⟨⟨⟨hf.nodeCount_eq, hf.edgeCount_eq⟩, hf.nodeTable_perm⟩, _, hf.isMatch⟩

/-- **The isomorphism test is exact**: it succeeds if and only if there is a bijection between the
nodes that preserves the labels of nodes and, between any two nodes and around every node, the
labels of edges with their multiplicities. -/
theorem isIsomorphic_iff_exists_equiv (a b : GraphView) : isIsomorphic a b = true ↔
    ∃ f : Fin a.nodeCount ≃ Fin b.nodeCount, (∀ v, b.label (f v) = a.label v) ∧
      ∀ u v : Fin a.nodeCount, (a.labelsBetween u v).Perm (b.labelsBetween (f u) (f v)) :=
  isIsomorphic_iff.trans GraphView.exists_isIso_iff_exists_equiv

end GraphGrammar
