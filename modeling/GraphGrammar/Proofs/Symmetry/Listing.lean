import GraphGrammar.Proofs.Symmetry.Sieve

/-!
# The list of automorphisms

An automorphism of a pattern is a permutation of its nodes that preserves the labels of nodes, the
labels of the edges between any two nodes with their multiplicities, and the set of constraints.
These are the symmetries that the search for automorphisms keeps. Up to the limit, what it found is
sorted, and the identity comes first in lexicographic order.

Below the cap of the search it is the limit only that cuts the list off, which is then told. What
the cap cuts off is not told.

## Main definitions

* `GraphGrammar.Pattern.IsAutomorphism` — what an automorphism is.

## Main results

* `GraphGrammar.Pattern.isAutomorphism_iff_isSymmetry`, `GraphGrammar.Pattern.IsAutomorphism.trans`,
  `GraphGrammar.Pattern.IsAutomorphism.exists_inverse` — the group of automorphisms.
* `GraphGrammar.Pattern.ncard_isAutomorphism` — how many there are.
* `GraphGrammar.Pattern.automorphisms_listing` — the list that is given.
* `GraphGrammar.Pattern.automorphisms_miss_twins` — a list that the cap cuts off.
-/

namespace GraphGrammar

/-! ### Lists in lexicographic order -/

theorem isLE_compare_iff {a b : List Nat} : (compare a b).isLE = true ↔ ¬b < a := by
  induction a generalizing b with
  | nil => cases b <;> simp
  | cons x a ih =>
    cases b with
    | nil => simp
    | cons y b =>
      rw [List.cons_lt_cons_iff, List.compare_eq_compareLex, List.compareLex_cons_cons,
        ← List.compare_eq_compareLex, Ordering.isLE_then_iff_or, ih, Nat.compare_eq_lt,
        Nat.compare_eq_eq]
      rcases Nat.lt_trichotomy x y with hlt | rfl | hgt
      · simp [hlt, Nat.lt_asymm hlt, hlt.ne']
      · simp
      · simp [hgt, Nat.lt_asymm hgt, hgt.ne']

/-- Distinct lists that are sorted are in ascending order. -/
theorem pairwise_lt_mergeSort {l : List (List Nat)} (h : l.Nodup) :
    (l.mergeSort fun a b => (compare a b).isLE).Pairwise (· < ·) := by
  have hsorted : (l.mergeSort fun a b => (compare a b).isLE).Pairwise
      fun a b => (compare a b).isLE = true :=
    List.pairwise_mergeSort (fun a b c => Std.TransCmp.isLE_trans) (fun a b => by
      rw [Bool.or_eq_true, isLE_compare_iff, isLE_compare_iff, ← not_and_or]
      exact fun hlt => List.lt_asymm hlt.1 hlt.2) l
  have hnodup := (List.mergeSort_perm l fun a b => (compare a b).isLE).nodup_iff.mpr h
  refine (hsorted.and hnodup).imp fun {a b} hab => ?_
  exact Decidable.by_contra fun hlt =>
    hab.2 (List.le_antisymm (List.not_lt.mp (isLE_compare_iff.mp hab.1)) (List.not_lt.mp hlt))

/-- No other order of the members of a sorted list is before it. -/
theorem not_lt_of_perm {l l' : List Nat} (hl : l.Pairwise (· ≤ ·)) (h : l'.Perm l) : ¬l' < l := by
  induction l generalizing l' with
  | nil => exact List.not_lt_nil l'
  | cons x l ih =>
    cases l' with
    | nil => cases h.nil_eq
    | cons y l' =>
      obtain ⟨hx, htail⟩ := List.pairwise_cons.mp hl
      rw [List.cons_lt_cons_iff]
      rintro (hlt | ⟨rfl, hlt⟩)
      · rcases List.mem_cons.mp (h.mem_iff.mp (List.mem_cons_self ..)) with heq | hmem
        · exact absurd heq hlt.ne
        · exact absurd (hx y hmem) (Nat.not_le.mpr hlt)
      · exact ih htail ((List.perm_cons y).mp h) hlt

namespace Pattern

variable {p : Pattern} {perm perm' : List Nat} {limit : Nat}

/-! ### Automorphisms -/

/-- A permutation of the nodes of a pattern that preserves what the pattern asks for. -/
structure IsAutomorphism (p : Pattern) (perm : List Nat) : Prop where
  /-- Every node is an image once. -/
  perm_range : perm.Perm (List.range p.graph.nodeCount)
  /-- The labels of nodes are preserved, a wildcard like any other label. -/
  label_eq : ∀ v < p.graph.nodeCount, p.graph.label (perm.getD v 0) = p.graph.label v
  /-- The labels of the edges between two nodes, or from a node to itself, are preserved. -/
  labels_perm : ∀ u < p.graph.nodeCount, ∀ v < p.graph.nodeCount,
    (p.graph.labelsBetween u v).Perm (p.graph.labelsBetween (perm.getD u 0) (perm.getD v 0))
  /-- The set of constraints is sent onto itself. -/
  image_constraints :
    p.constraints.toFinset.image (Constraint.permute perm) = p.constraints.toFinset

/-- A permutation that is an isomorphism of the graph. -/
theorem isAutomorphism_of_isIso (hlength : perm.length = p.graph.nodeCount)
    (hiso : GraphView.IsIso (fun v => perm.getD v 0) p.graph p.graph)
    (himage : p.constraints.toFinset.image (Constraint.permute perm) = p.constraints.toFinset) :
    p.IsAutomorphism perm where
  perm_range := by
    rw [← map_range_getD hlength]
    exact map_range_perm (fun v hv => hiso.lt hv) hiso.inj
  label_eq v hv := hiso.label_eq hv
  labels_perm u hu v hv := hiso.labels_perm hu hv
  image_constraints := himage

theorem IsSymmetry.isAutomorphism (h : p.IsSymmetry perm) : p.IsAutomorphism perm :=
  isAutomorphism_of_isIso h.length_eq h.isIso h.image_permute_constraints

namespace IsAutomorphism

variable (h : p.IsAutomorphism perm)

include h

theorem length_eq : perm.length = p.graph.nodeCount := by
  rw [h.perm_range.length_eq, List.length_range]

theorem mem_lt {v : Nat} (hv : v ∈ perm) : v < p.graph.nodeCount :=
  List.mem_range.mp (h.perm_range.mem_iff.mp hv)

theorem isIso : GraphView.IsIso (fun v => perm.getD v 0) p.graph p.graph where
  nodeCount_eq := rfl
  lt {v} hv := by
    have hv' : v < perm.length := h.length_eq.symm ▸ hv
    have hmem := h.mem_lt (List.getElem_mem hv')
    simpa [hv'] using hmem
  inj {u v} hu hv heq := by
    have hnodup := h.perm_range.nodup_iff.mpr List.nodup_range
    have hu' : u < perm.length := h.length_eq.symm ▸ hu
    have hv' : v < perm.length := h.length_eq.symm ▸ hv
    have himage : perm[u] = perm[v] := by simpa [hu', hv'] using heq
    exact hnodup.getElem_inj_iff.mp himage
  label_eq {v} hv := h.label_eq v hv
  labels_perm {u v} hu hv := h.labels_perm u hu v hv

theorem isSymmetry : p.IsSymmetry perm where
  length_eq := h.length_eq
  isIso := h.isIso
  fixes := List.all_eq_true.mpr fun c hc => by
    rw [List.contains_iff_mem, ← List.mem_toFinset, ← h.image_constraints]
    exact Finset.mem_image_of_mem _ (List.mem_toFinset.mpr hc)

/-- **One automorphism after another** is an automorphism. -/
theorem trans (h' : p.IsAutomorphism perm') : p.IsAutomorphism (permuted perm perm') := by
  refine isAutomorphism_of_isIso ?_ ?_ ?_
  · rw [permuted, List.length_map, h.length_eq]
  · exact (h.isIso.trans h'.isIso).congr fun v hv =>
      (getD_permuted (h.length_eq.symm ▸ hv) 0).symm
  · rw [← permute_comp_permute (h'.length_eq.trans h.length_eq.symm) fun v hv =>
      h'.length_eq.symm ▸ h.mem_lt hv, ← Finset.image_image, h.image_constraints,
      h'.image_constraints]

/-- **The inverse of an automorphism** is an automorphism. -/
theorem exists_inverse : ∃ perm', p.IsAutomorphism perm' ∧
    permuted perm perm' = List.range p.graph.nodeCount ∧
    permuted perm' perm = List.range p.graph.nodeCount := by
  obtain ⟨perm', hlength, hiso, hleft, hright⟩ := h.isSymmetry.exists_inverse_permutation
  refine ⟨perm', isAutomorphism_of_isIso hlength hiso ?_, hleft, hright⟩
  have hcomp := permute_comp_permute (hlength.trans h.length_eq.symm) fun v hv =>
    hlength ▸ h.mem_lt hv
  have hidentity : Constraint.permute (List.range p.graph.nodeCount) = id :=
    funext fun c => c.permute_range _
  calc p.constraints.toFinset.image (Constraint.permute perm')
      = (p.constraints.toFinset.image (Constraint.permute perm)).image
          (Constraint.permute perm') := by rw [h.image_constraints]
    _ = p.constraints.toFinset := by
        rw [Finset.image_image, hcomp, hleft, hidentity, Finset.image_id]

end IsAutomorphism

/-- **Automorphisms** are the permutations that are kept by the search for them. -/
theorem isAutomorphism_iff_isSymmetry : p.IsAutomorphism perm ↔ p.IsSymmetry perm :=
  ⟨IsAutomorphism.isSymmetry, IsSymmetry.isAutomorphism⟩

/-- **The number of automorphisms.** -/
theorem ncard_isAutomorphism (p : Pattern) :
    {perm | p.IsAutomorphism perm}.ncard = p.allAutomorphisms.length := by
  have hset : {perm | p.IsAutomorphism perm} = (p.allAutomorphisms.toFinset : Set (List Nat)) := by
    ext perm
    simp [mem_allAutomorphisms_iff, isAutomorphism_iff_isSymmetry]
  rw [hset, Set.ncard_coe_finset, List.toFinset_card_of_nodup p.nodup_allAutomorphisms]

/-- The automorphisms of a sieve are its matches in nodes that are labelled with the tags. -/
theorem isAutomorphism_sieve_iff {tags : List String} : (sieve tags).IsAutomorphism perm ↔
    perm ∈ (sieve tags).occurrences none (Graph.scattered tags).view := by
  rw [mem_occurrences_iff (inRange_sieve tags), isAutomorphism_iff_isSymmetry,
    isSymmetry_sieve_iff]

theorem ncard_isAutomorphism_sieve (tags : List String) :
    {perm | (sieve tags).IsAutomorphism perm}.ncard =
      ((sieve tags).occurrences none (Graph.scattered tags).view).length := by
  simp only [isAutomorphism_sieve_iff, mem_occurrences_iff (inRange_sieve tags)]
  exact ncard_isMatch (inRange_sieve tags)

/-! ### The list that is given -/

/-- What is given are automorphisms. -/
theorem isAutomorphism_of_mem (h : perm ∈ (p.automorphisms limit).permutations) :
    p.IsAutomorphism perm := by
  obtain ⟨-, -, hfirst, -⟩ := p.exists_state_automorphismSearch limit
  have hmem := (p.permutations_automorphisms_perm limit).mem_iff.mp h
  exact (mem_allAutomorphisms_iff.mp
    (hfirst.subset (List.mem_of_mem_take hmem))).isAutomorphism

/-- They are in ascending order. -/
theorem pairwise_automorphisms (p : Pattern) (limit : Nat) :
    (p.automorphisms limit).permutations.Pairwise (· < ·) := by
  obtain ⟨-, -, hfirst, -⟩ := p.exists_state_automorphismSearch limit
  have hnodup := p.nodup_allAutomorphisms.sublist hfirst.sublist
  exact pairwise_lt_mergeSort (hnodup.sublist (List.take_sublist (max limit 1) _))

/-- The identity is given whatever the limit, and no permutation is before it. -/
theorem head?_automorphisms (p : Pattern) (limit : Nat) :
    (p.automorphisms limit).permutations.head? = some (List.range p.graph.nodeCount) := by
  obtain ⟨rest, hstate, -⟩ := p.exists_state_automorphismSearch limit
  have hidentity : List.range p.graph.nodeCount ∈ (p.automorphisms limit).permutations := by
    have hlimit : max limit 1 = max limit 1 - 1 + 1 := by omega
    rw [(p.permutations_automorphisms_perm limit).mem_iff, hstate, hlimit, List.take_succ_cons]
    exact List.mem_cons_self ..
  have hsorted := p.pairwise_automorphisms limit
  have hmem (perm : List Nat) (h : perm ∈ (p.automorphisms limit).permutations) :
      p.IsAutomorphism perm := isAutomorphism_of_mem h
  generalize (p.automorphisms limit).permutations = permutations at hidentity hsorted hmem ⊢
  cases permutations with
  | nil => exact absurd hidentity List.not_mem_nil
  | cons perm permutations =>
    rcases List.mem_cons.mp hidentity with heq | htail
    · rw [heq, List.head?_cons]
    · have hlt := (List.pairwise_cons.mp hsorted).1 _ htail
      have hperm := (hmem perm (List.mem_cons_self ..)).perm_range
      exact absurd hlt (not_lt_of_perm List.pairwise_le_range hperm)

/-- Below the cap, the limit cuts off what there is too much. -/
theorem length_automorphisms (hcap : p.BelowCap limit) :
    (p.automorphisms limit).permutations.length =
      min p.allAutomorphisms.length (max limit 1) := by
  rw [(p.permutations_automorphisms_perm limit).length_eq, state_automorphismSearch hcap,
    List.length_take, List.length_take]
  omega

/-- What is not cut off is complete. -/
theorem mem_automorphisms_iff_isAutomorphism (hcap : p.BelowCap limit)
    (htruncated : (p.automorphisms limit).truncated = false) :
    perm ∈ (p.automorphisms limit).permutations ↔ p.IsAutomorphism perm := by
  rw [mem_automorphisms_iff hcap htruncated, isAutomorphism_iff_isSymmetry]

/-- **The list of automorphisms.** Whatever the limit, some automorphisms are given, each once, in
lexicographic order and with the identity first. Unless the search for them meets its cap, there
are as many as the limit allows, it is told whether there are more, and if not, these are all
automorphisms, which form a group. -/
theorem automorphisms_listing (p : Pattern) (limit : Nat) :
    (∀ perm ∈ (p.automorphisms limit).permutations, p.IsAutomorphism perm) ∧
    (p.automorphisms limit).permutations.Pairwise (· < ·) ∧
    (p.automorphisms limit).permutations.head? = some (List.range p.graph.nodeCount) ∧
    (p.BelowCap limit →
      (p.automorphisms limit).permutations.length =
          min {perm | p.IsAutomorphism perm}.ncard (max limit 1) ∧
      ((p.automorphisms limit).truncated = true ↔
          max limit 1 < {perm | p.IsAutomorphism perm}.ncard) ∧
      ((p.automorphisms limit).truncated = false →
        (∀ perm, perm ∈ (p.automorphisms limit).permutations ↔ p.IsAutomorphism perm) ∧
        (∀ perm ∈ (p.automorphisms limit).permutations,
          ∀ perm' ∈ (p.automorphisms limit).permutations,
            permuted perm perm' ∈ (p.automorphisms limit).permutations) ∧
        ∀ perm ∈ (p.automorphisms limit).permutations,
          ∃ perm' ∈ (p.automorphisms limit).permutations,
            permuted perm perm' = List.range p.graph.nodeCount ∧
            permuted perm' perm = List.range p.graph.nodeCount)) := by
  refine ⟨fun perm h => isAutomorphism_of_mem h, p.pairwise_automorphisms limit,
    p.head?_automorphisms limit, fun hcap => ?_⟩
  rw [ncard_isAutomorphism]
  refine ⟨length_automorphisms hcap, truncated_automorphisms_iff hcap, fun htruncated => ?_⟩
  have hmem (perm : List Nat) :
      perm ∈ (p.automorphisms limit).permutations ↔ p.IsAutomorphism perm :=
    mem_automorphisms_iff_isAutomorphism hcap htruncated
  refine ⟨hmem, fun perm h perm' h' => ?_, fun perm h => ?_⟩
  · exact (hmem _).mpr (((hmem perm).mp h).trans ((hmem perm').mp h'))
  · obtain ⟨perm', hautomorphism, hleft, hright⟩ := ((hmem perm).mp h).exists_inverse
    exact ⟨perm', (hmem perm').mpr hautomorphism, hleft, hright⟩

/-- Of the two automorphisms of a sieve for tags of which two are the same, one is given, though the
limit allows two, and it is not told that there are more. -/
theorem automorphisms_miss_twins :
    (sieve twinTags).automorphisms 2 = ⟨21, [List.range 21], false⟩ ∧
    (sieve twinTags).IsAutomorphism twinExchange ∧
    {perm | (sieve twinTags).IsAutomorphism perm}.ncard = 2 := by
  refine ⟨automorphisms_twins, ?_, ?_⟩
  · rw [isAutomorphism_sieve_iff, occurrences_twins]
    exact List.mem_cons_of_mem _ (List.mem_singleton_self _)
  · rw [ncard_isAutomorphism_sieve, occurrences_twins]
    rfl

/-- A centre with three rays that end in nodes of any label, two of which are not joined. -/
def trident : Pattern :=
  ⟨(⟨["a", "*", "*", "*"], [⟨0, 1, "-"⟩, ⟨2, 0, "-"⟩, ⟨0, 3, "-"⟩], by decide⟩ : Graph).view,
    [.noEdge 1 2, .noEdge 2 1], some "*"⟩

/-- Of the six permutations of the rays, two preserve the constraints. The identity is given even if
the limit is zero. -/
theorem automorphisms_listing_trident :
    trident.BelowCap 0 ∧ trident.BelowCap 2 ∧
    trident.automorphisms 0 = ⟨4, [[0, 1, 2, 3]], true⟩ ∧
    trident.automorphisms 2 = ⟨4, [[0, 1, 2, 3], [0, 2, 1, 3]], false⟩ ∧
    {perm | trident.IsAutomorphism perm}.ncard = 2 ∧
    (∀ perm, perm ∈ [[0, 1, 2, 3], [0, 2, 1, 3]] ↔ trident.IsAutomorphism perm) ∧
    ∀ perm ∈ [[0, 1, 2, 3], [0, 2, 1, 3]], ∀ perm' ∈ [[0, 1, 2, 3], [0, 2, 1, 3]],
      permuted perm perm' ∈ [[0, 1, 2, 3], [0, 2, 1, 3]] := by
  have hcap (limit : Nat) : trident.BelowCap limit := .few_nodes (by decide)
  have hcut : trident.automorphisms 0 = ⟨4, [[0, 1, 2, 3]], true⟩ := by decide +kernel
  have hstate : (trident.automorphismSearch 2).state = [[0, 1, 2, 3], [0, 2, 1, 3]] := by
    decide +kernel
  have hall : trident.automorphisms 2 = ⟨4, [[0, 1, 2, 3], [0, 2, 1, 3]], false⟩ := by
    rw [automorphisms, ← automorphismSearch, hstate]
    exact congrArg (Automorphisms.mk 4 · false) (List.mergeSort_of_pairwise (by decide))
  obtain ⟨-, -, -, hbelow⟩ := trident.automorphisms_listing 2
  obtain ⟨hlength, htruncated, hcomplete⟩ := hbelow (hcap 2)
  rw [hall] at hlength htruncated hcomplete
  obtain ⟨hmem, hclosed, -⟩ := hcomplete rfl
  have hcount : {perm | trident.IsAutomorphism perm}.ncard = 2 := by
    have hnot := mt htruncated.mpr Bool.false_ne_true
    dsimp only [List.length_cons, List.length_nil] at hlength
    omega
  exact ⟨hcap 0, hcap 2, hcut, hall, hcount, hmem, hclosed⟩

end Pattern

end GraphGrammar
