import Mathlib.Data.List.Lex
import GraphGrammar.Proofs.Lists
import GraphGrammar.Proofs.Matching.Search

/-!
# The order of the hits

Candidates are tried in ascending order at every step. Hence the matches are reported in ascending
lexicographic order of their images, read in the order in which the nodes of the pattern are placed.

## Main results

* `GraphGrammar.pairwise_completions` — the completions of a placement ascend.
* `GraphGrammar.Pattern.pairwise_occurrences`, `GraphGrammar.Pattern.pairwise_lt_occurrences` — the
  matches ascend.
* `GraphGrammar.Pattern.occurrences_eq_of_pairwise` — a list of the matches that ascends.
-/

namespace GraphGrammar

variable {p : Pattern} {t : GraphView}

theorem PlannedNode.pairwise_candidates (step : PlannedNode) (t : GraphView) (m : Placement) :
    (step.candidates t m).Pairwise (· < ·) := by
  rw [candidates]
  split
  · exact List.pairwise_lt_range
  · split
    · exact List.Pairwise.nil
    · exact (t.neighbours _).ascending

/-- The images in the order in which they were placed. -/
def Placement.placedImages (m : Placement) : List Nat := (m.map Prod.snd).reverse

theorem Placement.placedImages_append (front m : Placement) :
    placedImages (front ++ m) = m.placedImages ++ front.placedImages := by
  rw [placedImages, List.map_append, List.reverse_append]
  rfl

/-- **The completions of a placement** ascend. Those that continue with one candidate all begin with
the images placed so far and this candidate; those that continue with a later one come after. -/
theorem pairwise_completions (order : Option SymmetryOrder) (plan : List PlannedNode)
    (m : Placement) :
    (completions p order t plan m).Pairwise fun m m' => m.placedImages < m'.placedImages := by
  induction plan generalizing m with
  | nil => exact List.pairwise_singleton _ _
  | cons step rest ih =>
    have hchoices : (step.choices p order t m).Pairwise (· < ·) :=
      (step.pairwise_candidates t m).filter _
    refine List.pairwise_flatMap.mpr ⟨fun c _ => ih _, hchoices.imp fun {c d} hcd => ?_⟩
    intro found hfound found' hfound'
    obtain ⟨front, rfl⟩ := (suffix_of_mem_completions hfound).1
    obtain ⟨front', rfl⟩ := (suffix_of_mem_completions hfound').1
    have hlt : c :: Placement.placedImages front < d :: Placement.placedImages front' :=
      List.cons_lt_cons_iff.mpr (Or.inl hcd)
    -- The images agree up to here, and the candidates are the first that differ.
    have hcons : ∀ (front : Placement) (c : Nat),
        Placement.placedImages (front ++ (step.node, c) :: m) =
          m.placedImages ++ c :: front.placedImages := by
      intro front c
      rw [Placement.placedImages_append]
      simp [Placement.placedImages]
    rw [hcons, hcons]
    exact List.append_left_lt hlt

namespace Pattern

/-- The images of a match in the order in which the nodes of the pattern are placed. -/
def placedImages (p : Pattern) (images : List Nat) : List Nat :=
  p.placingOrder.map fun v => images.getD v 0

/-- **The matches** ascend. -/
theorem pairwise_occurrences (hp : p.inRange = true) : (p.occurrences none t).Pairwise
    fun images images' => p.placedImages images < p.placedImages images' := by
  have hplaced := p.placingOrder_perm
  have hnodup : ([] ++ p.placingOrder).Nodup := hplaced.nodup_iff.mpr List.nodup_range
  rw [occurrences, plan?_eq hp]
  split
  · exact List.Pairwise.nil
  · have hread : ∀ m ∈ completions p none t (p.steps [] p.placingOrder) [],
        m.placedImages = p.placedImages (m.occurrence p.graph.nodeCount).images := by
      intro m hm
      have hfits := ((mem_completions_iff (Placement.Fits.nil p t) hnodup).mp hm).1
      have heq := congrArg Placement.placedImages (eq_ofImages_of_fits hplaced hfits)
      rw [heq, placedImages, Placement.placedImages, Placement.ofImages, List.map_reverse,
        List.reverse_reverse, List.map_map]
      rfl
    simp only [Option.filter_none]
    rw [List.pairwise_map]
    refine (pairwise_completions none _ _).imp_of_mem fun hm hm' hlt => ?_
    rwa [← hread _ hm, ← hread _ hm']

/-- If the nodes are placed as they are numbered, the matches ascend as lists. -/
theorem pairwise_lt_occurrences (hp : p.inRange = true)
    (horder : p.placingOrder = List.range p.graph.nodeCount) :
    (p.occurrences none t).Pairwise (· < ·) := by
  have hread {images : List Nat} (himages : images ∈ p.occurrences none t) :
      p.placedImages images = images := by
    rw [placedImages, horder]
    exact map_range_getD ((mem_occurrences_iff hp).mp himages).length_eq
  refine (pairwise_occurrences hp).imp_of_mem fun himages himages' hlt => ?_
  rwa [hread himages, hread himages'] at hlt

/-- **A list of all matches that ascends** is the list of the matches as they are reported. -/
theorem occurrences_eq_of_pairwise (hp : p.inRange = true) {found : List (List Nat)}
    (hfound : found.Pairwise fun images images' => p.placedImages images < p.placedImages images')
    (hmem : ∀ m, m ∈ found ↔ p.IsMatch t m) : p.occurrences none t = found := by
  have hantisymm : Std.Antisymm fun images images' : List Nat =>
      p.placedImages images < p.placedImages images' :=
    ⟨fun _ _ h h' => absurd h' (List.lt_asymm h)⟩
  have hirrefl : Std.Irrefl fun images images' : List Nat =>
      p.placedImages images < p.placedImages images' := ⟨fun _ h => List.lt_irrefl _ h⟩
  exact (pairwise_occurrences hp).eq_of_mem_iff hfound fun m => by
    rw [mem_occurrences_iff hp, hmem]

end Pattern

end GraphGrammar
