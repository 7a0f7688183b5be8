import GraphGrammar.Proofs.Symmetry.Automorphisms

/-!
# The group of symmetries

The symmetries of a pattern form a group: one after another is a symmetry, and so is the inverse of
one. That the inverse sends constraints to constraints holds because there are finitely many: as the
symmetry sends distinct constraints to distinct constraints, it sends the set of constraints onto
itself. Matches that follow from each other by symmetries are equivalent, and this is an equivalence
relation.

## Main definitions

* `GraphGrammar.Pattern.Equivalent` — matches that follow from each other by a symmetry.

## Main results

* `GraphGrammar.Pattern.IsSymmetry.trans` — one symmetry after another.
* `GraphGrammar.Pattern.IsSymmetry.exists_inverse` — the inverse of a symmetry.
* `GraphGrammar.Pattern.IsSymmetry.image_permute_constraints` — the set of constraints is sent onto
  itself. -/

namespace GraphGrammar

/-! ### Constraints under permutations -/

namespace Constraint

theorem mapNodes_mapNodes (c : Constraint) (f g : Nat → Nat) :
    (c.mapNodes f).mapNodes g = c.mapNodes fun v => g (f v) := by
  cases c <;> rfl

/-- Only the images of the nodes that the constraint refers to count. -/
theorem mapNodes_congr {c : Constraint} {f g : Nat → Nat} (h : ∀ v ∈ c.nodes, f v = g v) :
    c.mapNodes f = c.mapNodes g := by
  cases c <;> simp only [nodes, List.mem_cons, List.not_mem_nil, or_false, forall_eq_or_imp,
    forall_eq] at h <;> simp only [mapNodes, h]

theorem mapNodes_eq_self {c : Constraint} {f : Nat → Nat} (h : ∀ v ∈ c.nodes, f v = v) :
    c.mapNodes f = c := by
  rw [mapNodes_congr h]
  cases c <;> rfl

theorem permute_range (c : Constraint) (n : Nat) : c.permute (List.range n) = c := by
  refine mapNodes_eq_self fun v _ => ?_
  by_cases hv : v < n
  · simp [hv]
  · simp [Nat.le_of_not_lt hv]

end Constraint

namespace Pattern

variable {p : Pattern} {t : GraphView} {m m' perm perm' : List Nat}

/-! ### Permutations after permutations -/

theorem permuted_range (m : List Nat) : permuted (List.range m.length) m = m :=
  map_range_getD rfl

theorem permuted_permuted (h : ∀ v ∈ perm, v < perm'.length) (m : List Nat) :
    permuted perm (permuted perm' m) = permuted (permuted perm perm') m := by
  rw [permuted, permuted, permuted, permuted, List.map_map]
  refine List.map_congr_left fun v hv => ?_
  simp [h v hv]

theorem getD_permuted {v : Nat} (hv : v < perm.length) (d : Nat) :
    (permuted perm perm').getD v d = perm'.getD (perm.getD v 0) 0 := by
  simp [permuted, hv]

/-- One permutation after another, for constraints. A node that neither lists stays. -/
theorem permute_permute {c : Constraint}
    (hc : ∀ v ∈ c.nodes, v < perm.length ∨ perm'.length ≤ v)
    (h : ∀ v ∈ perm, v < perm'.length) :
    (c.permute perm).permute perm' = c.permute (permuted perm perm') := by
  rw [Constraint.permute, Constraint.permute, Constraint.permute, Constraint.mapNodes_mapNodes]
  refine Constraint.mapNodes_congr fun v hv => ?_
  rcases Nat.lt_or_ge v perm.length with hlt | hge
  · have himage := h _ (List.getElem_mem hlt)
    rw [getD_permuted hlt]
    simp [hlt, himage]
  · have hge' := (hc v hv).resolve_left (Nat.not_lt.mpr hge)
    simp [permuted, hge, hge']

/-- One permutation after another, for all constraints. -/
theorem permute_comp_permute (hlength : perm'.length = perm.length)
    (h : ∀ v ∈ perm, v < perm'.length) :
    Constraint.permute perm' ∘ Constraint.permute perm =
      Constraint.permute (permuted perm perm') :=
  funext fun _ => permute_permute (fun v _ => hlength ▸ Nat.lt_or_ge v perm.length) h

/-! ### The group -/

/-- The identity is a symmetry. -/
theorem isSymmetry_range (p : Pattern) : p.IsSymmetry (List.range p.graph.nodeCount) where
  length_eq := List.length_range
  isIso := (GraphView.IsIso.refl p.graph).congr fun v hv => by simp [hv]
  fixes := List.all_eq_true.mpr fun c hc => by
    rwa [c.permute_range, List.contains_iff_mem]

namespace IsSymmetry

variable (h : p.IsSymmetry perm)

include h

theorem lt_length {v : Nat} (hv : v ∈ perm) (h' : p.IsSymmetry perm') : v < perm'.length :=
  h'.length_eq ▸ h.mem_lt hv

/-- **One symmetry after another** is a symmetry. -/
theorem trans (hp : p.inRange = true) (h' : p.IsSymmetry perm') :
    p.IsSymmetry (permuted perm perm') where
  length_eq := by rw [permuted, List.length_map, h.length_eq]
  isIso := (h.isIso.trans h'.isIso).congr fun v hv =>
    (getD_permuted (h.length_eq ▸ hv) 0).symm
  fixes := List.all_eq_true.mpr fun c hc => by
    rw [List.contains_iff_mem, ← permute_permute
      (fun v hv => .inl (h.length_eq ▸ lt_of_mem_nodes hp hc hv)) fun v hv => h.lt_length hv h']
    exact h'.permute_mem (h.permute_mem hc)

/-- The inverse permutation, of which it remains to be shown what it does to constraints. -/
theorem exists_inverse_permutation : ∃ perm', perm'.length = p.graph.nodeCount ∧
    GraphView.IsIso (fun v => perm'.getD v 0) p.graph p.graph ∧
    permuted perm perm' = List.range p.graph.nodeCount ∧
    permuted perm' perm = List.range p.graph.nodeCount := by
  obtain ⟨inverse, hiso, hleft, hright⟩ := h.isIso.exists_symm
  have hgetD : ∀ v < p.graph.nodeCount,
      ((List.range p.graph.nodeCount).map inverse).getD v 0 = inverse v := fun v hv => by simp [hv]
  refine ⟨(List.range p.graph.nodeCount).map inverse, by simp, hiso.congr fun v hv =>
    (hgetD v hv).symm, ?_, ?_⟩
  · refine List.ext_getElem (by simp [permuted, h.length_eq]) fun v hv hv' => ?_
    have hlt : v < p.graph.nodeCount := by simpa using hv'
    have hv : v < perm.length := h.length_eq ▸ hlt
    have himage : perm.getD v 0 = perm[v] := by simp [hv]
    rw [List.getElem_range]
    simp only [permuted, List.getElem_map]
    rw [hgetD _ (h.mem_lt (List.getElem_mem hv)), ← himage, hleft v hlt]
  · refine List.ext_getElem (by simp [permuted]) fun v hv hv' => ?_
    have hlt : v < p.graph.nodeCount := by simpa using hv'
    simp only [permuted, List.getElem_map, List.getElem_range]
    exact hright v hlt

/-- **The set of constraints** is sent onto itself. -/
theorem image_permute_constraints :
    p.constraints.toFinset.image (Constraint.permute perm) = p.constraints.toFinset := by
  obtain ⟨perm', hlength, -, hleft, -⟩ := h.exists_inverse_permutation
  have hcomp := permute_comp_permute (hlength.trans h.length_eq.symm) fun v hv =>
    hlength ▸ h.mem_lt hv
  have hinverse : Function.LeftInverse (Constraint.permute perm') (Constraint.permute perm) :=
    fun c => by
      rw [← Function.comp_apply (f := Constraint.permute perm'), hcomp, hleft, c.permute_range]
  refine Finset.eq_of_subset_of_card_le (fun c hc => ?_)
    (Finset.card_image_of_injective _ hinverse.injective).ge
  obtain ⟨c', hc', rfl⟩ := Finset.mem_image.mp hc
  exact List.mem_toFinset.mpr (h.permute_mem (List.mem_toFinset.mp hc'))

/-- **The inverse of a symmetry** is a symmetry. -/
theorem exists_inverse (hp : p.inRange = true) : ∃ perm', p.IsSymmetry perm' ∧
    permuted perm' perm = List.range p.graph.nodeCount := by
  obtain ⟨perm', hlength, hiso, hleft, hright⟩ := h.exists_inverse_permutation
  refine ⟨perm', ⟨hlength, hiso, List.all_eq_true.mpr fun c hc => ?_⟩, hright⟩
  have hmem : c ∈ p.constraints.toFinset.image (Constraint.permute perm) := by
    rw [h.image_permute_constraints]
    exact List.mem_toFinset.mpr hc
  obtain ⟨c', hc', rfl⟩ := Finset.mem_image.mp hmem
  have hc' := List.mem_toFinset.mp hc'
  rw [permute_permute (fun v hv => .inl (h.length_eq ▸ lt_of_mem_nodes hp hc' hv))
    (fun v hv => hlength ▸ h.mem_lt hv), hleft, c'.permute_range]
  exact List.contains_iff_mem.mpr hc'

end IsSymmetry

/-! ### Equivalent matches -/

/-- The match `m'` follows from `m` by a symmetry of the pattern, which is applied first. -/
def Equivalent (p : Pattern) (m m' : List Nat) : Prop :=
  ∃ perm, p.IsSymmetry perm ∧ m' = permuted perm m

theorem Equivalent.refl (hm : p.IsMatch t m) : p.Equivalent m m :=
  ⟨_, p.isSymmetry_range, by rw [← hm.length_eq, permuted_range]⟩

theorem Equivalent.trans {m'' : List Nat} (hp : p.inRange = true) (h : p.Equivalent m m')
    (h' : p.Equivalent m' m'') : p.Equivalent m m'' := by
  obtain ⟨perm, hperm, rfl⟩ := h
  obtain ⟨perm', hperm', rfl⟩ := h'
  exact ⟨_, hperm'.trans hp hperm, permuted_permuted (fun v hv => hperm'.lt_length hv hperm) m⟩

theorem Equivalent.symm (hp : p.inRange = true) (hm : p.IsMatch t m) (h : p.Equivalent m m') :
    p.Equivalent m' m := by
  obtain ⟨perm, hperm, rfl⟩ := h
  obtain ⟨perm', hperm', hinverse⟩ := hperm.exists_inverse hp
  refine ⟨perm', hperm', ?_⟩
  rw [permuted_permuted (fun v hv => hperm'.lt_length hv hperm), hinverse, ← hm.length_eq,
    permuted_range]

end Pattern

end GraphGrammar
