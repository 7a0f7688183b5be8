import GraphGrammar.Proofs.Symmetry.Isomorphism
import GraphGrammar.Symmetry.Automorphism

/-!
# Symmetries of patterns

The automorphisms that are found of a pattern are symmetries of it: isomorphisms of its graph that
send its constraints to its constraints. A match after which a symmetry was applied first is a
match.

## Main definitions

* `GraphGrammar.Pattern.IsSymmetry` — what an automorphism is.
* `GraphGrammar.Pattern.permuted` — a match after a permutation.

## Main results

* `GraphGrammar.Pattern.isSymmetry_of_mem_automorphisms` — what is found are symmetries.
* `GraphGrammar.Pattern.IsMatch.permuted` — matches after symmetries.
-/

namespace GraphGrammar

/-! ### Invariants of searches -/

/-- What every hit keeps true of the state of the listener is true after a search. -/
theorem searchOne_induction {σ : Type} {p : Pattern} {t : GraphView} {order : Option SymmetryOrder}
    {maxHits : Nat} {report : Listener σ} (inv : σ → Prop)
    (h : ∀ hit ∈ p.hits order t 0, ∀ s, inv s → inv (report s hit).1) {s : σ} (hs : inv s) :
    inv (searchOne maxHits report p order t s).state := by
  rw [searchOne, searchPattern_fst_eq]
  refine untilHalted_induction (fun s : Tally σ => inv s.state) (fun hit hhit s hs => ?_) hs
  have hstep := h hit hhit s.state hs
  rw [Tally.deliver]
  split
  · exact hs
  · exact hstep

theorem Constraint.holds_mapNodes (c : Constraint) (t : GraphView) (f : Nat → Nat)
    (image : Nat → Option Nat) : (c.mapNodes f).holds t image = c.holds t fun v => image (f v) := by
  cases c <;> rfl

namespace Pattern

variable {p : Pattern} {t : GraphView} {m perm : List Nat}

/-! ### Symmetries -/

/-- A permutation of the nodes of a pattern that is an isomorphism of its graph and sends its
constraints to its constraints. -/
structure IsSymmetry (p : Pattern) (perm : List Nat) : Prop where
  /-- Every node has an image. -/
  length_eq : perm.length = p.graph.nodeCount
  /-- The graph is sent to itself. -/
  isIso : GraphView.IsIso (fun v => perm.getD v 0) p.graph p.graph
  /-- The constraints are sent to constraints. -/
  fixes : p.fixesConstraints perm = true

theorem isSymmetry_of_isMatch (h : (ofGraph p.graph).IsMatch p.graph perm)
    (hfixes : p.fixesConstraints perm = true) : p.IsSymmetry perm :=
  ⟨h.length_eq, isIso_of_isMatch h rfl rfl, hfixes⟩

/-- **Automorphisms that are found** are symmetries. -/
theorem isSymmetry_of_mem_automorphisms {limit : Nat}
    (h : perm ∈ (p.automorphisms limit).permutations)
    (hne : perm ≠ List.range p.graph.nodeCount) : p.IsSymmetry perm := by
  have hinv : ∀ perm ∈ (searchOne countLimit (p.keepAutomorphisms (max limit 1)) (ofGraph p.graph)
      none p.graph [List.range p.graph.nodeCount]).state,
      perm = List.range p.graph.nodeCount ∨ p.IsSymmetry perm := by
    refine searchOne_induction (fun found : List (List Nat) => ∀ perm ∈ found,
      perm = List.range p.graph.nodeCount ∨ p.IsSymmetry perm) (fun hit hhit found hfound => ?_)
      (fun perm hperm => .inl (List.mem_singleton.mp hperm))
    obtain ⟨images, himages, rfl⟩ := List.mem_map.mp hhit
    have hmatch := (mem_occurrences_iff (inRange_ofGraph p.graph)).mp himages
    rw [keepAutomorphisms]
    split
    · exact hfound
    · next hkeep =>
      simp only [Bool.or_eq_true, Bool.not_eq_true', not_or, Bool.not_eq_false] at hkeep
      intro perm hperm
      rcases List.mem_append.mp hperm with hperm | hperm
      · exact hfound perm hperm
      · rw [List.mem_singleton.mp hperm]
        exact .inr (isSymmetry_of_isMatch hmatch hkeep.2)
  rw [automorphisms] at h
  exact (hinv perm (List.mem_of_mem_take (List.mem_mergeSort.mp h))).resolve_left hne

/-! ### Matches after symmetries -/

/-- The match that first permutes the nodes of the pattern. -/
def permuted (perm m : List Nat) : List Nat := perm.map fun v => m.getD v 0

theorem getElem?_permuted (perm m : List Nat) (v : Nat) :
    (permuted perm m)[v]? = (perm[v]?).map fun w => m.getD w 0 := by
  rw [permuted, List.getElem?_map]

theorem getD_eq_of_getElem? {v w : Nat} (hv : perm[v]? = some w) : perm.getD v 0 = w := by
  rw [List.getD_eq_getElem?_getD, hv]
  rfl

namespace IsSymmetry

variable (h : p.IsSymmetry perm)

include h

theorem getElem?_eq {v : Nat} (hv : v < p.graph.nodeCount) : perm[v]? = some (perm.getD v 0) := by
  simp [h.length_eq, hv]

theorem lt_of_getElem? {v w : Nat} (hv : perm[v]? = some w) : v < p.graph.nodeCount :=
  h.length_eq ▸ (List.getElem?_eq_some_iff.mp hv).1

theorem mem_lt {w : Nat} (hw : w ∈ perm) : w < p.graph.nodeCount := by
  obtain ⟨v, hv⟩ := List.mem_iff_getElem?.mp hw
  rw [← getD_eq_of_getElem? hv]
  exact h.isIso.lt (h.lt_of_getElem? hv)

theorem permute_mem {c : Constraint} (hc : c ∈ p.constraints) : c.permute perm ∈ p.constraints :=
  List.contains_iff_mem.mp (List.all_eq_true.mp h.fixes c hc)

theorem nodup : perm.Nodup := by
  refine List.nodup_iff_injective_get.mpr fun i j heq => Fin.ext ?_
  have hlt : ∀ k : Fin perm.length, k.val < p.graph.nodeCount := fun k => by
    rw [← h.length_eq]
    exact k.isLt
  refine h.isIso.inj (hlt i) (hlt j) ?_
  simpa using heq

end IsSymmetry

/-- **Matches after symmetries** are matches. -/
theorem IsMatch.permuted (hm : p.IsMatch t m) (h : p.IsSymmetry perm) (hp : p.inRange = true) :
    p.IsMatch t (permuted perm m) := by
  have himage : ∀ {v a}, (Pattern.permuted perm m)[v]? = some a →
      v < p.graph.nodeCount ∧ perm.getD v 0 < p.graph.nodeCount ∧ m[perm.getD v 0]? = some a := by
    intro v a hv
    rw [getElem?_permuted, Option.map_eq_some_iff] at hv
    obtain ⟨w, hw, rfl⟩ := hv
    have hlt := h.lt_of_getElem? hw
    rw [getD_eq_of_getElem? hw]
    have hwlt := h.mem_lt (List.mem_of_getElem? hw)
    exact ⟨hlt, hwlt, (hm.exists_image hwlt).1⟩
  refine ⟨?_, ?_, ?_, fun {v a} hv => ?_, fun {u v a b} hu hv => ?_, fun c hc => ?_⟩
  · rw [Pattern.permuted, List.length_map, h.length_eq]
  · exact h.nodup.map_on fun u hu v hv heq => hm.image_inj (h.mem_lt hu) (h.mem_lt hv) heq
  · intro a ha
    obtain ⟨v, hv, rfl⟩ := List.mem_map.mp ha
    exact (hm.exists_image (h.mem_lt hv)).2
  · obtain ⟨hlt, -, hget⟩ := himage hv
    rw [← h.isIso.label_eq hlt]
    exact hm.labelFits hget
  · obtain ⟨hult, -, hu⟩ := himage hu
    obtain ⟨hvlt, -, hv⟩ := himage hv
    exact (hm.assignable hu hv).congr (h.isIso.labels_perm hult hvlt).symm (List.Perm.refl _)
  · rw [← hm.holds _ (h.permute_mem hc), Constraint.permute, Constraint.holds_mapNodes]
    refine Constraint.holds_congr _ fun v hv => ?_
    have hget := h.getElem?_eq (lt_of_mem_nodes hp hc hv)
    have hgetD : perm.getD v v = perm.getD v 0 := by
      rw [List.getD_eq_getElem?_getD (a := v), hget, Option.getD_some]
    rw [getElem?_permuted, hget, Option.map_some, hgetD]
    exact (hm.exists_image (h.mem_lt (List.mem_of_getElem? hget))).1.symm

end Pattern

end GraphGrammar
