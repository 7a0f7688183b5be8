import Mathlib.Order.Partition.Finpartition
import GraphGrammar.Proofs.Graph.ParentTable
import GraphGrammar.Proofs.Lists
import GraphGrammar.Proofs.Symmetry.Listing
import GraphGrammar.Proofs.Symmetry.Representatives
import GraphGrammar.Symmetry.OrbitTable

/-!
# Orbits

Two nodes are in one orbit if an automorphism of the pattern sends one to the other. The orbits that
are reported are found by uniting every node with its images under the automorphisms that are known.
This gives the classes of the equivalence relation that they generate. As automorphisms can be
inverted and follow one another, every class is inside an orbit, and if all automorphisms are known,
one of them leads from any node of a class to any other. Then the classes are the orbits.

The number of automorphisms that send a node to another one is the same for every node of its orbit:
from one that does, all others follow by an automorphism that fixes the node. So the size of an
orbit divides the number of automorphisms.

## Main definitions

* `GraphGrammar.Automorphisms.Sends` — what one of the automorphisms does to a node.
* `GraphGrammar.Pattern.orbit` — the orbit of a node.
* `GraphGrammar.Automorphisms.orbits` — the classes that are found.

## Main results

* `GraphGrammar.Automorphisms.tableReport?_eq` — the report that is found by a table.
* `GraphGrammar.Automorphisms.eqvGen_sends_iff` — what is in one class.
* `GraphGrammar.Pattern.card_dvd_card_automorphismGroup` — orbits and their stabilisers.
* `GraphGrammar.Pattern.orbitReport_counts_orbits` — the report on the automorphisms of a pattern.
* `GraphGrammar.Pattern.orbitReport_miscounts_triplets` — a report on automorphisms that are no group.
-/

namespace GraphGrammar

namespace Automorphisms

variable {a : Automorphisms} {u v : Nat}

/-! ### The classes of nodes -/

/-- One of the automorphisms sends a node to another one. -/
def Sends (a : Automorphisms) (u v : Nat) : Prop := ∃ perm ∈ a.permutations, perm[u]? = some v

/-- Every automorphism permutes the nodes. -/
def ArePermutations (a : Automorphisms) : Prop :=
  ∀ perm ∈ a.permutations, perm.Perm (List.range a.size)

/-- The nodes with their images. -/
def links (a : Automorphisms) : List (Nat × Nat) :=
  a.permutations.flatMap fun perm => perm.zipIdx.map Prod.swap

theorem mem_links_iff : (u, v) ∈ a.links ↔ a.Sends u v := by
  simp only [links, Sends, List.mem_flatMap, List.mem_map, Prod.exists, Prod.swap_prod_mk,
    Prod.mk.injEq, List.mem_zipIdx_iff_getElem?]
  constructor
  · rintro ⟨perm, hperm, image, node, himage, rfl, rfl⟩
    exact ⟨perm, hperm, himage⟩
  · rintro ⟨perm, hperm, himage⟩
    exact ⟨perm, hperm, v, u, himage, rfl, rfl⟩

theorem Sends.lt (ha : a.ArePermutations) (h : a.Sends u v) : u < a.size ∧ v < a.size := by
  obtain ⟨perm, hperm, himage⟩ := h
  have hrange := ha perm hperm
  obtain ⟨hu, -⟩ := List.getElem?_eq_some_iff.mp himage
  rw [hrange.length_eq, List.length_range] at hu
  exact ⟨hu, List.mem_range.mp (hrange.mem_iff.mp (List.mem_of_getElem? himage))⟩

theorem lt_of_mem_links (ha : a.ArePermutations) {pair : Nat × Nat} (h : pair ∈ a.links) :
    pair.1 < a.size ∧ pair.2 < a.size :=
  (mem_links_iff.mp h).lt ha

theorem orbitForest_eq (a : Automorphisms) :
    a.orbitForest = (DisjointSets.singletons a.size).unionAll a.links := by
  rw [orbitForest, DisjointSets.unionAll, links, List.foldl_flatMap]
  simp only [List.foldl_map, Prod.fst_swap, Prod.snd_swap]

/-- Uniting nodes with their images leads to the same roots where automorphisms lead from one node
to another, forth or back. -/
theorem eqvGen_sends_iff (ha : a.ArePermutations) :
    Relation.EqvGen a.Sends u v ↔ a.orbitForest.root u = a.orbitForest.root v := by
  have hlinks : (fun u v => (u, v) ∈ a.links) = a.Sends :=
    funext fun u => funext fun v => propext mem_links_iff
  rw [orbitForest_eq, DisjointSets.root_unionAll_singletons_iff fun pair => lt_of_mem_links ha,
    hlinks]

instance decidableRelRoots (a : Automorphisms) :
    DecidableRel (Setoid.ker a.orbitForest.root) := fun u v =>
  inferInstanceAs (Decidable (a.orbitForest.root u = a.orbitForest.root v))

/-- The classes that are found. -/
def orbits (a : Automorphisms) : Finpartition (Finset.range a.size) :=
  Finpartition.ofSetSetoid (Setoid.ker a.orbitForest.root) (Finset.range a.size)

theorem mem_part_orbits_iff : v ∈ a.orbits.part u ↔
    u < a.size ∧ v < a.size ∧ a.orbitForest.root u = a.orbitForest.root v := by
  rw [orbits, Finpartition.mem_part_ofSetSetoid_iff_rel, Finset.mem_range, Finset.mem_range]
  rfl

/-- **What is in one class** are nodes between which automorphisms lead, forth or back. -/
theorem mem_part_orbits_iff_eqvGen (ha : a.ArePermutations) (hu : u < a.size) (hv : v < a.size) :
    v ∈ a.orbits.part u ↔ Relation.EqvGen a.Sends u v := by
  rw [mem_part_orbits_iff, eqvGen_sends_iff ha]
  exact ⟨fun h => h.2.2, fun h => ⟨hu, hv, h⟩⟩

theorem exists_part_orbits_eq {part : Finset Nat} (h : part ∈ a.orbits.parts) :
    ∃ u < a.size, a.orbits.part u = part := by
  obtain ⟨u, hu⟩ := a.orbits.nonempty_of_mem_parts h
  exact ⟨u, Finset.mem_range.mp (a.orbits.subset h hu), a.orbits.part_eq_of_mem h hu⟩

theorem part_orbits_mem (hu : u < a.size) : a.orbits.part u ∈ a.orbits.parts :=
  a.orbits.part_mem.mpr (Finset.mem_range.mpr hu)

/-! ### The sizes of the classes -/

/-- Every class is the class of the node that stands for it. -/
theorem parts_orbits (a : Automorphisms) : a.orbits.parts =
    {v ∈ Finset.range a.size | a.orbitForest.root v = v}.image a.orbits.part := by
  ext part
  rw [Finset.mem_image]
  constructor
  · intro hpart
    obtain ⟨u, hlt, rfl⟩ := exists_part_orbits_eq hpart
    have hroot := (a.orbitForest.root_le u).trans_lt hlt
    refine ⟨a.orbitForest.root u, Finset.mem_filter.mpr
      ⟨Finset.mem_range.mpr hroot, a.orbitForest.root_root u⟩, ?_⟩
    exact a.orbits.part_eq_of_mem (part_orbits_mem hlt)
      (mem_part_orbits_iff.mpr ⟨hlt, hroot, (a.orbitForest.root_root u).symm⟩)
  · rintro ⟨u, hu, rfl⟩
    exact part_orbits_mem (Finset.mem_range.mp (Finset.mem_filter.mp hu).1)

/-- Nodes that stand for one class are the same. -/
theorem injOn_part_orbits (a : Automorphisms) :
    Set.InjOn a.orbits.part ↑{v ∈ Finset.range a.size | a.orbitForest.root v = v} := by
  intro u hu v hv h
  obtain ⟨hlt, hroot⟩ := Finset.mem_filter.mp (Finset.mem_coe.mp hu)
  obtain ⟨-, hroot'⟩ := Finset.mem_filter.mp (Finset.mem_coe.mp hv)
  have hmem := a.orbits.mem_part hlt
  rw [h] at hmem
  rw [← hroot, ← hroot', (mem_part_orbits_iff.mp hmem).2.2]

/-- A class is as large as its root is often found. -/
theorem count_map_root (hu : u < a.size) :
    ((List.range a.size).map a.orbitForest.root).count (a.orbitForest.root u) =
      (a.orbits.part u).card := by
  have hpart : a.orbits.part u =
      {v ∈ Finset.range a.size | a.orbitForest.root v = a.orbitForest.root u} := by
    ext v
    rw [mem_part_orbits_iff, Finset.mem_filter, Finset.mem_range]
    simp [hu, eq_comm]
  rw [hpart, List.count_eq_countP, List.countP_map, List.countP_eq_length_filter,
    ← List.toFinset_card_of_nodup (List.nodup_range.filter _)]
  congr 1
  ext v
  simp

/-- **The sizes that are reported** are those of the classes, if they have a place. -/
theorem coe_orbitSizes (hsize : a.size < 2 ^ 32) :
    (a.orbitSizes : Multiset Nat) = a.orbits.parts.val.map Finset.card := by
  have hreported : ∀ u < a.size, reportedSize (a.orbits.part u).card = (a.orbits.part u).card :=
    fun u hu => by
      have hle := Finset.card_le_card (a.orbits.part_subset u)
      rw [Finset.card_range] at hle
      exact Nat.mod_eq_of_lt (hle.trans_lt hsize)
  rw [parts_orbits, Finset.image_val_of_injOn a.injOn_part_orbits, Multiset.map_map,
    Finset.filter_val, Finset.range_val, Multiset.range, Multiset.filter_coe, Multiset.map_coe,
    Multiset.coe_eq_coe, orbitSizes]
  refine (List.mergeSort_perm _ _).trans (List.Perm.of_eq ?_)
  simp only [beq_eq_decide]
  refine List.map_congr_left fun u hu => ?_
  obtain ⟨hlt, hroot⟩ := List.mem_filter.mp hu
  rw [Function.comp_apply, ← hreported u (List.mem_range.mp hlt),
    ← count_map_root (List.mem_range.mp hlt), of_decide_eq_true hroot]

theorem pairwise_orbitSizes (a : Automorphisms) : a.orbitSizes.Pairwise (· ≤ ·) :=
  List.pairwise_mergeSort' (· ≤ ·) _

/-- Every node is counted once. -/
theorem sum_orbitSizes (hsize : a.size < 2 ^ 32) : a.orbitSizes.sum = a.size := by
  rw [← Multiset.sum_coe, coe_orbitSizes hsize, Finset.sum_map_val, a.orbits.sum_card_parts,
    Finset.card_range]

theorem mem_orbitSizes_iff (hsize : a.size < 2 ^ 32) {size : Nat} :
    size ∈ a.orbitSizes ↔ ∃ u < a.size, (a.orbits.part u).card = size := by
  rw [← Multiset.mem_coe, coe_orbitSizes hsize, Multiset.mem_map]
  constructor
  · rintro ⟨part, hpart, rfl⟩
    obtain ⟨u, hu, rfl⟩ := exists_part_orbits_eq hpart
    exact ⟨u, hu, rfl⟩
  · rintro ⟨u, hu, rfl⟩
    exact ⟨_, part_orbits_mem hu, rfl⟩

/-! ### The report that is found by a table -/

/-- Sets are counted alike, whichever members stand for them. -/
theorem map_count_eraseDups_perm (root root' : Nat → Nat) (n : Nat) (hlt : ∀ u < n, root' u < n)
    (hidem : ∀ u < n, root' (root' u) = root' u)
    (h : ∀ u < n, ∀ v < n, (root u = root v ↔ root' u = root' v)) (f : Nat → Nat) :
    (((List.range n).map root).eraseDups.map fun r => f (((List.range n).map root).count r)).Perm
      (((List.range n).filter fun v => root' v == v).map fun r =>
        f (((List.range n).map root').count r)) := by
  have hcount : ∀ u < n, ((List.range n).map root').count (root' u) =
      ((List.range n).map root).count (root u) := fun u hu => by
    rw [List.count_eq_countP, List.count_eq_countP, List.countP_map, List.countP_map]
    refine List.countP_congr fun v hv => ?_
    simpa using (h v (List.mem_range.mp hv) u hu).symm
  have hroots : ((List.range n).map root).eraseDups.Perm
      (((List.range n).filter fun v => root' v == v).map root) := by
    have hnodup : (((List.range n).filter fun v => root' v == v).map root).Nodup := by
      refine List.Nodup.map_on (fun u hu v hv heq => ?_) (List.nodup_range.filter _)
      obtain ⟨hu, hroot⟩ := List.mem_filter.mp hu
      obtain ⟨hv, hroot'⟩ := List.mem_filter.mp hv
      rw [← beq_iff_eq.mp hroot, ← beq_iff_eq.mp hroot',
        (h u (List.mem_range.mp hu) v (List.mem_range.mp hv)).mp heq]
    refine (List.perm_ext_iff_of_nodup (nodup_eraseDups _) hnodup).mpr fun r => ?_
    rw [List.mem_eraseDups, List.mem_map, List.mem_map]
    constructor
    · rintro ⟨u, hu, rfl⟩
      have hu := List.mem_range.mp hu
      refine ⟨root' u, List.mem_filter.mpr ⟨List.mem_range.mpr (hlt u hu), ?_⟩, ?_⟩
      · exact beq_iff_eq.mpr (hidem u hu)
      · exact (h _ (hlt u hu) u hu).mpr (hidem u hu)
    · rintro ⟨u, hu, rfl⟩
      exact ⟨u, (List.mem_filter.mp hu).1, rfl⟩
  refine (hroots.map _).trans (List.Perm.of_eq ?_)
  rw [List.map_map]
  refine List.map_congr_left fun u hu => ?_
  obtain ⟨hu, hroot⟩ := List.mem_filter.mp hu
  rw [Function.comp_apply, ← hcount u (List.mem_range.mp hu), beq_iff_eq.mp hroot]

/-- **The report that is found by a table** is the same. -/
theorem tableReport?_eq (ha : a.ArePermutations) : a.tableReport? = some a.orbitReport := by
  rw [tableReport?, orbitReport]
  split
  · rfl
  obtain ⟨root, t, t', hunite, hfind, -, hroot⟩ := ParentTable.exists_roots_eq
    fun pair (hpair : pair ∈ a.links) => lt_of_mem_links ha hpair
  rw [← orbitForest_eq] at hroot
  have hsizes : a.countOrbits.run' (ParentTable.singletons a.size) = some a.orbitSizes := by
    have hperm := map_count_eraseDups_perm root a.orbitForest.root a.size
      (fun u hu => (a.orbitForest.root_le u).trans_lt hu)
      (fun u _ => a.orbitForest.root_root u) hroot reportedSize
    have hsorted := List.Perm.eq_of_pairwise (fun _ _ _ _ => Nat.le_antisymm)
      (List.pairwise_mergeSort' (· ≤ ·) _) (List.pairwise_mergeSort' (· ≤ ·) _)
      ((List.mergeSort_perm _ _).trans (hperm.trans (List.mergeSort_perm _ _).symm))
    rw [orbitSizes, ← hsorted, countOrbits, ParentTable.forM_unionAll, ← links]
    simp [hunite, hfind]
  rw [hsizes, Option.map_some]

end Automorphisms

namespace Pattern

variable {p : Pattern} {perm perm' : List Nat} {limit u v w : Nat}

/-! ### The orbits of a pattern -/

/-- The orbit of a node: where automorphisms of the pattern send it. -/
def orbit (p : Pattern) (u : Nat) : Set Nat :=
  {v | ∃ perm, p.IsAutomorphism perm ∧ perm[u]? = some v}

theorem permuted_eq_some (h : perm[u]? = some v) (h' : perm'[v]? = some w) :
    (permuted perm perm')[u]? = some w := by
  simp [getElem?_permuted, h, h']

theorem mem_orbit_self (hu : u < p.graph.nodeCount) : u ∈ p.orbit u :=
  ⟨_, p.isSymmetry_range.isAutomorphism, by simp [hu]⟩

theorem lt_of_mem_orbit (h : v ∈ p.orbit u) : u < p.graph.nodeCount ∧ v < p.graph.nodeCount := by
  obtain ⟨perm, hperm, himage⟩ := h
  obtain ⟨hu, -⟩ := List.getElem?_eq_some_iff.mp himage
  exact ⟨hperm.length_eq ▸ hu, hperm.mem_lt (List.mem_of_getElem? himage)⟩

theorem mem_orbit_trans (h : v ∈ p.orbit u) (h' : w ∈ p.orbit v) : w ∈ p.orbit u := by
  obtain ⟨perm, hperm, himage⟩ := h
  obtain ⟨perm', hperm', himage'⟩ := h'
  exact ⟨_, hperm.trans hperm', permuted_eq_some himage himage'⟩

/-- An inverse sends every node back. -/
theorem IsAutomorphism.getElem?_inverse (hperm : p.IsAutomorphism perm)
    (hperm' : p.IsAutomorphism perm')
    (h : permuted perm perm' = List.range p.graph.nodeCount) (himage : perm[u]? = some v) :
    perm'[v]? = some u := by
  obtain ⟨hu, hv⟩ := lt_of_mem_orbit ⟨perm, hperm, himage⟩
  obtain ⟨w, himage'⟩ : ∃ w, perm'[v]? = some w :=
    ⟨_, List.getElem?_eq_getElem (hperm'.length_eq.symm ▸ hv)⟩
  have hback := permuted_eq_some himage himage'
  rw [h, List.getElem?_range hu] at hback
  rw [himage', hback]

theorem mem_orbit_symm (h : v ∈ p.orbit u) : u ∈ p.orbit v := by
  obtain ⟨perm, hperm, himage⟩ := h
  obtain ⟨perm', hperm', hleft, -⟩ := hperm.exists_inverse
  exact ⟨perm', hperm', hperm.getElem?_inverse hperm' hleft himage⟩

/-! ### Orbits and stabilisers -/

theorem IsAutomorphism.permuted_range (h : p.IsAutomorphism perm) :
    permuted perm (List.range p.graph.nodeCount) = perm := by
  rw [permuted]
  refine (List.map_congr_left fun v hv => ?_).trans (List.map_id perm)
  simp [h.mem_lt hv]

/-- All automorphisms, as a finite set. -/
def automorphismGroup (p : Pattern) : Finset (List Nat) := p.allAutomorphisms.toFinset

theorem mem_automorphismGroup_iff : perm ∈ p.automorphismGroup ↔ p.IsAutomorphism perm := by
  rw [automorphismGroup, List.mem_toFinset, mem_allAutomorphisms_iff,
    isAutomorphism_iff_isSymmetry]

/-- The automorphisms that send a node to another one. -/
def automorphismsSending (p : Pattern) (u v : Nat) : Finset (List Nat) :=
  {perm ∈ p.automorphismGroup | perm[u]? = some v}

theorem mem_automorphismsSending_iff :
    perm ∈ p.automorphismsSending u v ↔ p.IsAutomorphism perm ∧ perm[u]? = some v := by
  rw [automorphismsSending, Finset.mem_filter, mem_automorphismGroup_iff]

/-- What follows an automorphism and its inverse, follows nothing. -/
theorem IsAutomorphism.permuted_permuted_inverse (h : p.IsAutomorphism perm)
    (h' : p.IsAutomorphism perm') {inverse : List Nat}
    (hinverse : permuted perm' inverse = List.range p.graph.nodeCount) :
    permuted (permuted perm perm') inverse = perm := by
  rw [← permuted_permuted fun v hv => h'.length_eq.symm ▸ h.mem_lt hv, hinverse,
    h.permuted_range]

/-- As many automorphisms send a node to another one of its orbit as fix it. -/
theorem card_automorphismGroup_sending (h : v ∈ p.orbit u) :
    (p.automorphismsSending u v).card = (p.automorphismsSending u u).card := by
  obtain ⟨perm, hperm, himage⟩ := h
  obtain ⟨perm', hperm', hleft, hright⟩ := hperm.exists_inverse
  have hinverse := hperm.getElem?_inverse hperm' hleft himage
  -- What sends the node there is followed by the way back, and what fixes it by the way there.
  refine Finset.card_nbij' (permuted · perm') (permuted · perm) ?_ ?_ ?_ ?_
  · intro σ hσ
    obtain ⟨hσ, hsend⟩ := mem_automorphismsSending_iff.mp hσ
    exact mem_automorphismsSending_iff.mpr ⟨hσ.trans hperm', permuted_eq_some hsend hinverse⟩
  · intro σ hσ
    obtain ⟨hσ, hfix⟩ := mem_automorphismsSending_iff.mp hσ
    exact mem_automorphismsSending_iff.mpr ⟨hσ.trans hperm, permuted_eq_some hfix himage⟩
  · exact fun σ hσ =>
      (mem_automorphismsSending_iff.mp hσ).1.permuted_permuted_inverse hperm' hright
  · exact fun σ hσ =>
      (mem_automorphismsSending_iff.mp hσ).1.permuted_permuted_inverse hperm hleft

/-- **Orbits and stabilisers.** The size of an orbit divides the number of automorphisms. -/
theorem card_dvd_card_automorphismGroup {part : Finset Nat}
    (hpart : ∀ v, v ∈ part ↔ v ∈ p.orbit u) (hu : u < p.graph.nodeCount) :
    part.card ∣ p.automorphismGroup.card := by
  have hmaps : Set.MapsTo (fun perm : List Nat => perm.getD u 0) p.automorphismGroup part := by
    intro perm hperm
    have hperm := mem_automorphismGroup_iff.mp (Finset.mem_coe.mp hperm)
    have hlt : u < perm.length := hperm.length_eq.symm ▸ hu
    exact (hpart _).mpr ⟨perm, hperm, by simp [hlt]⟩
  have hfibre : ∀ v ∈ part, {perm ∈ p.automorphismGroup | perm.getD u 0 = v}.card =
      (p.automorphismsSending u u).card := fun v hv => by
    rw [← card_automorphismGroup_sending ((hpart v).mp hv), automorphismsSending]
    refine congrArg Finset.card (Finset.filter_congr fun perm hperm => ?_)
    have hlt : u < perm.length := (mem_automorphismGroup_iff.mp hperm).length_eq.symm ▸ hu
    simp [hlt]
  rw [Finset.card_eq_sum_card_fiberwise hmaps, Finset.sum_const_nat hfibre]
  exact Nat.dvd_mul_right ..

theorem card_automorphismGroup (p : Pattern) :
    p.automorphismGroup.card = {perm | p.IsAutomorphism perm}.ncard := by
  rw [ncard_isAutomorphism, automorphismGroup,
    List.toFinset_card_of_nodup p.nodup_allAutomorphisms]

/-! ### The report on a pattern -/

theorem arePermutations_automorphisms (p : Pattern) (limit : Nat) :
    (p.automorphisms limit).ArePermutations := fun _ hperm =>
  (isAutomorphism_of_mem hperm).perm_range

/-- What is in one class is in one orbit. -/
theorem mem_orbit_of_eqvGen (h : Relation.EqvGen (p.automorphisms limit).Sends u v) :
    u = v ∨ v ∈ p.orbit u := by
  induction h with
  | rel u v h =>
    obtain ⟨perm, hperm, himage⟩ := h
    exact .inr ⟨perm, isAutomorphism_of_mem hperm, himage⟩
  | refl u => exact .inl rfl
  | symm u v _ ih => exact ih.imp Eq.symm mem_orbit_symm
  | trans u v w _ _ ih ih' =>
    rcases ih with rfl | ih
    · exact ih'
    · rcases ih' with rfl | ih'
      · exact .inr ih
      · exact .inr (mem_orbit_trans ih ih')

theorem mem_orbit_of_mem_part (h : v ∈ (p.automorphisms limit).orbits.part u) : v ∈ p.orbit u := by
  obtain ⟨hu, -, hroot⟩ := Automorphisms.mem_part_orbits_iff.mp h
  have hclass := (Automorphisms.eqvGen_sends_iff (p.arePermutations_automorphisms limit)).mpr hroot
  rcases mem_orbit_of_eqvGen hclass with rfl | hmem
  · exact mem_orbit_self hu
  · exact hmem

/-- The classes are the orbits, if every automorphism is known. -/
theorem mem_part_iff_sends
    (hall : ∀ perm, perm ∈ (p.automorphisms limit).permutations ↔ p.IsAutomorphism perm) :
    v ∈ (p.automorphisms limit).orbits.part u ↔ (p.automorphisms limit).Sends u v := by
  constructor
  · intro h
    obtain ⟨perm, hperm, himage⟩ := mem_orbit_of_mem_part h
    exact ⟨perm, (hall perm).mpr hperm, himage⟩
  · intro h
    have ha := p.arePermutations_automorphisms limit
    obtain ⟨hu, hv⟩ := h.lt ha
    exact Automorphisms.mem_part_orbits_iff.mpr
      ⟨hu, hv, (Automorphisms.eqvGen_sends_iff ha).mp (.rel _ _ h)⟩

/-- There is one automorphism of a pattern without nodes. -/
theorem length_permutations_of_nodeCount_eq_zero (h : p.graph.nodeCount = 0) :
    (p.automorphisms limit).permutations.length = 1 := by
  have hnil : ∀ perm ∈ (p.automorphisms limit).permutations, perm = [] := fun perm hperm => by
    rw [← List.length_eq_zero_iff, (isAutomorphism_of_mem hperm).length_eq, h]
  have hhead := p.head?_automorphisms limit
  have hsorted := p.pairwise_automorphisms limit
  generalize (p.automorphisms limit).permutations = permutations at hnil hhead hsorted ⊢
  match permutations with
  | [] => exact absurd hhead.symm (Option.some_ne_none _)
  | [_] => rfl
  | perm :: perm' :: _ =>
    have hlt := (List.pairwise_cons.mp hsorted).1 perm' (List.mem_cons_self ..)
    rw [hnil perm' (by simp)] at hlt
    exact absurd hlt (List.not_lt_nil perm)

theorem orbitReport_automorphisms (p : Pattern) (limit : Nat) :
    (p.automorphisms limit).orbitReport =
      ⟨(p.automorphisms limit).permutations.length, (p.automorphisms limit).truncated,
        (p.automorphisms limit).orbitSizes⟩ := by
  have hsize : (p.automorphisms limit).size = p.graph.nodeCount := rfl
  rw [Automorphisms.orbitReport]
  split
  · next h =>
    have hsizes : (p.automorphisms limit).orbitSizes = [] := by
      simp [Automorphisms.orbitSizes, h]
    rw [length_permutations_of_nodeCount_eq_zero (hsize.symm.trans h), hsizes]
  · rfl

/-- **The report on automorphisms.** A table finds the report. It has the number of automorphisms
that are known and the sizes of the classes that they generate, in ascending order, where every node
is in one class. Every class is in one orbit. If the list of automorphisms is not cut off, there are
as many as reported, a node is in the class of another one exactly when one automorphism sends it
there, so that the classes are the orbits, and every size divides the number of automorphisms. -/
theorem orbitReport_counts_orbits (p : Pattern) (limit : Nat) (hsize : p.graph.nodeCount < 2 ^ 32) :
    (p.automorphisms limit).tableReport? = some (p.automorphisms limit).orbitReport ∧
    (p.automorphisms limit).orbitReport.order = (p.automorphisms limit).permutations.length ∧
    (p.automorphisms limit).orbitReport.truncated = (p.automorphisms limit).truncated ∧
    (p.automorphisms limit).orbitReport.orbitSizes.Pairwise (· ≤ ·) ∧
    (p.automorphisms limit).orbitReport.orbitSizes.sum = p.graph.nodeCount ∧
    ∃ classes : Finpartition (Finset.range p.graph.nodeCount),
      ((p.automorphisms limit).orbitReport.orbitSizes : Multiset Nat) =
        classes.parts.val.map Finset.card ∧
      (∀ u < p.graph.nodeCount, ∀ v < p.graph.nodeCount, v ∈ classes.part u ↔
        Relation.EqvGen (p.automorphisms limit).Sends u v) ∧
      (∀ u < p.graph.nodeCount, (classes.part u : Set Nat) ⊆ p.orbit u) ∧
      ((p.automorphisms limit).truncated = false → p.BelowCap limit →
        (p.automorphisms limit).orbitReport.order = {perm | p.IsAutomorphism perm}.ncard ∧
        (∀ u < p.graph.nodeCount, ∀ v, v ∈ classes.part u ↔
          ∃ perm ∈ (p.automorphisms limit).permutations, perm[u]? = some v) ∧
        (∀ u < p.graph.nodeCount, (classes.part u : Set Nat) = p.orbit u) ∧
        ∀ size ∈ (p.automorphisms limit).orbitReport.orbitSizes,
          size ∣ (p.automorphisms limit).orbitReport.order) := by
  have ha := p.arePermutations_automorphisms limit
  rw [Automorphisms.tableReport?_eq ha, orbitReport_automorphisms]
  refine ⟨rfl, rfl, rfl, Automorphisms.pairwise_orbitSizes _, Automorphisms.sum_orbitSizes hsize,
    (p.automorphisms limit).orbits, Automorphisms.coe_orbitSizes hsize,
    fun u hu v hv => Automorphisms.mem_part_orbits_iff_eqvGen ha hu hv,
    fun u _ v hv => mem_orbit_of_mem_part hv, fun htruncated hcap => ?_⟩
  have hall (perm : List Nat) :
      perm ∈ (p.automorphisms limit).permutations ↔ p.IsAutomorphism perm :=
    mem_automorphisms_iff_isAutomorphism hcap htruncated
  have horbit (u v : Nat) : v ∈ (p.automorphisms limit).orbits.part u ↔ v ∈ p.orbit u := by
    rw [mem_part_iff_sends hall, Automorphisms.Sends]
    simp only [hall]
    rfl
  have horder : (p.automorphisms limit).permutations.length = p.automorphismGroup.card := by
    rw [← List.toFinset_card_of_nodup ((p.pairwise_automorphisms limit).imp fun h => h.ne)]
    refine congrArg Finset.card (Finset.ext fun perm => ?_)
    rw [List.mem_toFinset, hall, mem_automorphismGroup_iff]
  refine ⟨horder.trans p.card_automorphismGroup, fun u _ v => mem_part_iff_sends hall,
    fun u _ => Set.ext (horbit u), fun size hmem => ?_⟩
  obtain ⟨u, hu, rfl⟩ := (Automorphisms.mem_orbitSizes_iff hsize).mp hmem
  rw [horder]
  exact card_dvd_card_automorphismGroup (horbit u) hu

/-- Tags of which the first two and the last are the same. -/
def tripletTags : List String :=
  ["triplet", "triplet", "c", "d", "e", "f", "g", "h", "i", "j", "k", "l", "m", "n", "o", "p", "q",
    "r", "s", "t", "triplet"]

/-- The first two nodes and the last are permuted. -/
def tripletPermutation (a b c : Nat) : List Nat := a :: b :: (List.range' 2 18 ++ [c])

theorem occurrences_triplets :
    (sieve tripletTags).occurrences none (Graph.scattered tripletTags).view =
      [tripletPermutation 0 1 20, tripletPermutation 0 20 1, tripletPermutation 1 0 20,
        tripletPermutation 1 20 0, tripletPermutation 20 0 1, tripletPermutation 20 1 0] := by
  decide +kernel

/-- Four of the six automorphisms of the triplets are found, and this is not told. They are no
group: the three are reported as an orbit, whose size does not divide the reported number, and none
of the four sends the first to the last. -/
theorem orbitReport_miscounts_triplets :
    (sieve tripletTags).graph.nodeCount < 2 ^ 32 ∧
    ((sieve tripletTags).automorphisms 6).truncated = false ∧
    {perm | (sieve tripletTags).IsAutomorphism perm}.ncard = 6 ∧
    ((sieve tripletTags).automorphisms 6).orbitReport.order = 4 ∧
    3 ∈ ((sieve tripletTags).automorphisms 6).orbitReport.orbitSizes ∧ ¬3 ∣ 4 ∧
    20 ∈ (sieve tripletTags).orbit 0 ∧
    ∀ perm ∈ ((sieve tripletTags).automorphisms 6).permutations, perm[0]? ≠ some 20 := by
  have hstate := @state_automorphismSearch_sieve tripletTags rfl
    (by rw [occurrences_triplets]; decide) (by rw [occurrences_triplets]; decide) 6
  rw [occurrences_triplets] at hstate
  have hall : (sieve tripletTags).automorphisms 6 = ⟨21, [tripletPermutation 0 1 20,
      tripletPermutation 0 20 1, tripletPermutation 1 0 20, tripletPermutation 1 20 0], false⟩ := by
    rw [automorphisms, ← automorphismSearch, hstate]
    exact congrArg (Automorphisms.mk 21 · false) (List.mergeSort_of_pairwise (by decide +kernel))
  refine ⟨by decide, by rw [hall], ?_, by rw [hall]; rfl, ?_, by decide, ?_, ?_⟩
  · rw [ncard_isAutomorphism_sieve, occurrences_triplets]
    rfl
  · rw [hall]
    exact List.mem_mergeSort.mpr (by decide +kernel)
  · refine ⟨tripletPermutation 20 1 0, ?_, by decide⟩
    rw [isAutomorphism_sieve_iff, occurrences_triplets]
    decide
  · rw [hall]
    decide

/-- The two ends of a fork are one orbit. If the limit is zero, nothing but the identity is known,
and the ends are told apart. -/
theorem orbitReport_counts_orbits_fork :
    fork.graph.nodeCount < 2 ^ 32 ∧
    fork.BelowCap 2 ∧
    fork.automorphisms 2 = ⟨3, [[0, 1, 2], [0, 2, 1]], false⟩ ∧
    (fork.automorphisms 2).tableReport? = some ⟨2, false, [1, 2]⟩ ∧
    {perm | fork.IsAutomorphism perm}.ncard = 2 ∧
    fork.orbit 1 = {1, 2} ∧
    fork.automorphisms 0 = ⟨3, [[0, 1, 2]], true⟩ ∧
    (fork.automorphisms 0).orbitReport.orbitSizes.sum = 3 := by
  have hcap : fork.BelowCap 2 := .few_nodes (by decide)
  have hcut : fork.automorphisms 0 = ⟨3, [[0, 1, 2]], true⟩ := by decide +kernel
  have hstate : (fork.automorphismSearch 2).state = [[0, 1, 2], [0, 2, 1]] := by decide +kernel
  have hall : fork.automorphisms 2 = ⟨3, [[0, 1, 2], [0, 2, 1]], false⟩ := by
    rw [automorphisms, ← automorphismSearch, hstate]
    exact congrArg (Automorphisms.mk 3 · false) (List.mergeSort_of_pairwise (by decide))
  have hreport : (⟨3, [[0, 1, 2], [0, 2, 1]], false⟩ : Automorphisms).orbitReport =
      ⟨2, false, [1, 2]⟩ := by
    refine congrArg (Automorphisms.OrbitReport.mk 2 false) ?_
    rw [Automorphisms.orbitSizes]
    exact (List.mergeSort_of_pairwise (by decide +kernel)).trans (by decide +kernel)
  obtain ⟨htable, -, -, -, -, classes, -, -, -, hcomplete⟩ :=
    fork.orbitReport_counts_orbits 2 (by decide)
  obtain ⟨-, -, -, -, hsum, -⟩ := fork.orbitReport_counts_orbits 0 (by decide)
  rw [hall] at htable hcomplete
  obtain ⟨horder, hsends, horbit, -⟩ := hcomplete rfl hcap
  rw [hreport] at htable horder
  refine ⟨by decide, hcap, hall, hall ▸ htable, horder.symm, ?_, hcut, hsum⟩
  ext v
  rw [← horbit 1 (by decide), Finset.mem_coe, hsends 1 (by decide)]
  simp [eq_comm]

end Pattern

end GraphGrammar
