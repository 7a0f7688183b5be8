import GraphGrammar.Proofs.Graph.Bonds
import GraphGrammar.Proofs.Lists
import GraphGrammar.Proofs.Matching.Sorted
import GraphGrammar.Proofs.SortedSet
import GraphGrammar.Proofs.Symmetry.AutomorphismSearch

/-!
# Searches that end at their cap

A graph without edges whose nodes have one label has every permutation as a match in itself. They
are met in lexicographic order, so that those with a small first image come first: with `n + 1`
nodes, `n!` permutations for every first image. For 21 nodes the cap, the largest number that can be
counted, is passed among the permutations that begin with 7.

A sieve is such a graph in which a constraint asks for the tag of every node. Its symmetries are the
permutations that preserve the tags, which are its matches in a graph whose nodes have the tags as
labels. The search for automorphisms goes through all permutations and keeps those few that preserve
the tags, and it ends at the cap before any of them that begins with 8 or more.

## Main definitions

* `GraphGrammar.Graph.scattered` — nodes without edges.
* `GraphGrammar.Pattern.sieve` — nodes that nothing but constraints tell apart.

## Main results

* `GraphGrammar.Pattern.isSymmetry_sieve_iff` — the symmetries of a sieve.
* `GraphGrammar.Pattern.take_occurrences_alike` — the matches by their first image.
* `GraphGrammar.Pattern.state_automorphismSearch_sieve` — what the search finds up to its cap.
-/

namespace GraphGrammar

theorem endpoints_lt_of_mem_nil (labels : List String) :
    ∀ e ∈ ([] : List Edge), e.source < labels.length ∧ e.target < labels.length :=
  fun _ he => absurd he List.not_mem_nil

/-- Nodes without edges. -/
def Graph.scattered (labels : List String) : Graph := ⟨labels, [], endpoints_lt_of_mem_nil labels⟩

/-- Nodes without edges that have the same label. -/
def Graph.alike (n : Nat) : Graph := scattered (List.replicate n "*")

namespace Graph

variable {labels : List String}

@[simp]
theorem labels_scattered : (scattered labels).labels = labels := rfl

@[simp]
theorem labels_alike (n : Nat) : (alike n).labels = List.replicate n "*" := rfl

@[simp]
theorem labelsBetween_view_scattered (u v : Nat) :
    (scattered labels).view.labelsBetween u v = [] :=
  labelsBetween_view ..

end Graph

namespace Pattern

variable {tags : List String} {perm : List Nat} {limit n : Nat}

/-! ### Symmetries of sieves -/

/-- Nodes without edges and with one label, told apart by constraints that ask for the tags. -/
def sieve (tags : List String) : Pattern where
  graph := (Graph.alike tags.length).view
  constraints := tags.zipIdx.map fun (tag, v) => .nodeLabel v (SortedSet.ofList [tag]) .allowed
  wildcard := some "*"

@[simp]
theorem nodeCount_graph_sieve : (sieve tags).graph.nodeCount = tags.length :=
  List.length_replicate

/-- Every permutation is a match of alike nodes in themselves. -/
theorem isMatch_alike_iff :
    (ofGraph (Graph.alike n).view).IsMatch (Graph.alike n).view perm ↔
      perm.Perm (List.range n) := by
  constructor
  · intro h
    have hlength := h.length_eq
    have hlt := h.lt_nodeCount
    simp only [ofGraph, Graph.view_nodeCount, Graph.labels_alike,
      List.length_replicate] at hlength hlt
    exact perm_range_of_nodup h.nodup hlt hlength.ge
  · intro h
    have hlt {v : Nat} (hv : v ∈ perm) : v < n := List.mem_range.mp (h.mem_iff.mp hv)
    refine ⟨?_, h.nodup_iff.mpr List.nodup_range, fun a ha => ?_, fun {v a} hv => ?_,
      fun _ _ => ?_, fun c hc => absurd hc List.not_mem_nil⟩
    · simpa [ofGraph] using h.length_eq
    · simpa using hlt ha
    · have hvlt : v < n := by
        simpa [h.length_eq] using (List.getElem?_eq_some_iff.mp hv).1
      have halt := hlt (List.mem_of_getElem? hv)
      simp [ofGraph, Graph.view_label, hvlt, halt]
    · rw [ofGraph, Graph.alike, Graph.labelsBetween_view_scattered]
      exact assignable_nil

theorem mem_constraints_sieve_iff {c : Constraint} : c ∈ (sieve tags).constraints ↔
    ∃ v tag, tags[v]? = some tag ∧ c = .nodeLabel v (SortedSet.ofList [tag]) .allowed := by
  simp only [sieve, List.mem_map, Prod.exists, List.mem_zipIdx_iff_getElem?, eq_comm]
  exact exists_comm

theorem inRange_sieve (tags : List String) : (sieve tags).inRange = true := by
  refine List.all_eq_true.mpr fun c hc => List.all_eq_true.mpr fun v hv => ?_
  obtain ⟨w, tag, htag, rfl⟩ := mem_constraints_sieve_iff.mp hc
  obtain rfl := List.mem_singleton.mp hv
  exact decide_eq_true (by simpa using (List.getElem?_eq_some_iff.mp htag).1)

/-- A permutation preserves the constraints of a sieve if it preserves the tags. -/
theorem fixesConstraints_sieve_iff (h : perm.Perm (List.range tags.length)) :
    (sieve tags).fixesConstraints perm = true ↔ ∀ c ∈ (sieve tags).constraints,
      c.holds (Graph.scattered tags).view (fun v => perm[v]?) = true := by
  rw [fixesConstraints, List.all_eq_true]
  refine forall₂_congr fun c hc => ?_
  obtain ⟨v, tag, htag, rfl⟩ := mem_constraints_sieve_iff.mp hc
  have hv : v < perm.length := by
    simpa [h.length_eq] using (List.getElem?_eq_some_iff.mp htag).1
  have hw : perm[v] < tags.length := List.mem_range.mp (h.mem_iff.mp (List.getElem_mem hv))
  have hpermute : (Constraint.nodeLabel v (SortedSet.ofList [tag]) .allowed).permute perm =
      .nodeLabel perm[v] (SortedSet.ofList [tag]) .allowed := by
    simp [Constraint.permute, Constraint.mapNodes, hv]
  have hholds : (Constraint.nodeLabel v (SortedSet.ofList [tag]) .allowed).holds
      (Graph.scattered tags).view (fun u => perm[u]?) = true ↔ tags[perm[v]]? = some tag := by
    simp [Constraint.holds, hv, hw, LabelPolicy.admits, SortedSet.contains, SortedSet.mem_ofList,
      Graph.view_label]
  rw [hpermute, hholds, List.contains_iff_mem, mem_constraints_sieve_iff]
  constructor
  · rintro ⟨w, tag', htag', heq⟩
    obtain ⟨rfl, hsets, -⟩ := Constraint.nodeLabel.inj heq
    have hmem : tag ∈ (SortedSet.ofList [tag']).toList := by
      rw [← hsets, SortedSet.mem_ofList]
      exact List.mem_singleton_self tag
    rwa [List.mem_singleton.mp (SortedSet.mem_ofList.mp hmem)]
  · exact fun htag' => ⟨_, _, htag', rfl⟩

/-- **The symmetries of a sieve** are its matches in nodes that are labelled with the tags. -/
theorem isSymmetry_sieve_iff :
    (sieve tags).IsSymmetry perm ↔ (sieve tags).IsMatch (Graph.scattered tags).view perm := by
  constructor
  · intro h
    have hperm := isMatch_alike_iff.mp h.isMatch
    refine ⟨h.length_eq, h.nodup, fun a ha => ?_, fun {v a} hv => ?_, fun _ _ => ?_,
      (fixesConstraints_sieve_iff hperm).mp h.fixes⟩
    · simpa using h.mem_lt ha
    · have hlt : v < tags.length := by simpa using h.lt_of_getElem? hv
      refine labelFits_of_wildcard ?_ _
      simp [sieve, Graph.view_label, hlt]
    · rw [sieve, Graph.alike, Graph.labelsBetween_view_scattered]
      exact assignable_nil
  · intro h
    have hlt : ∀ v ∈ perm, v < tags.length := fun v hv => by simpa using h.lt_nodeCount v hv
    have hperm : perm.Perm (List.range tags.length) :=
      perm_range_of_nodup h.nodup hlt (by simpa using h.length_eq.ge)
    exact isSymmetry_of_isMatch (isMatch_alike_iff.mpr hperm)
      ((fixesConstraints_sieve_iff hperm).mpr h.holds)

/-! ### Permutations by their first image -/

theorem headD_le_headD_of_lt {a b : List Nat} (h : a < b) : a.headD 0 ≤ b.headD 0 := by
  cases a with
  | nil => exact Nat.zero_le _
  | cons x a =>
    cases b with
    | nil => exact absurd h (List.not_lt_nil _)
    | cons y b =>
      rcases List.cons_lt_cons_iff.mp h with hlt | ⟨rfl, -⟩
      · exact hlt.le
      · exact Nat.le_refl _

/-- As many permutations begin with a number as there are permutations of the others. -/
theorem length_filter_headD_eq {a : Nat} (ha : a ≤ n) {l : List (List Nat)} (hnodup : l.Nodup)
    (hl : ∀ perm, perm ∈ l ↔ perm.Perm (List.range (n + 1))) :
    (l.filter fun perm => perm.headD 0 = a).length = n.factorial := by
  have hmem : a ∈ List.range (n + 1) := List.mem_range.mpr (Nat.lt_succ_of_le ha)
  have hothers : ((List.range (n + 1)).erase a).length = n := by
    rw [List.length_erase_of_mem hmem, List.length_range, Nat.add_sub_cancel]
  have hperm : (l.filter fun perm => perm.headD 0 = a).Perm
      (((List.range (n + 1)).erase a).permutations.map (a :: ·)) := by
    refine (List.perm_ext_iff_of_nodup (hnodup.filter _) ?_).mpr fun perm => ?_
    · exact (List.nodup_permutations _ (List.nodup_range.erase a)).map
        fun _ _ heq => (List.cons.inj heq).2
    · rw [List.mem_filter, hl, decide_eq_true_iff, List.mem_map]
      constructor
      · rintro ⟨hperm, hhead⟩
        cases perm with
        | nil => exact absurd hperm.length_eq (by simp)
        | cons b perm =>
          obtain rfl : b = a := hhead
          refine ⟨perm, List.mem_permutations.mpr ?_, rfl⟩
          exact (List.cons_perm_iff_perm_erase.mp hperm).2
      · rintro ⟨rest, hrest, rfl⟩
        exact ⟨List.cons_perm_iff_perm_erase.mpr ⟨hmem, List.mem_permutations.mp hrest⟩, rfl⟩
  rw [hperm.length_eq, List.length_map, List.length_permutations, hothers]

/-- In ascending order, the permutations with small first images come first. -/
theorem take_eq_filter_headD_lt {k : Nat} (hk : k ≤ n + 1) {l : List (List Nat)}
    (hascending : l.Pairwise (· < ·)) (hl : ∀ perm, perm ∈ l ↔ perm.Perm (List.range (n + 1))) :
    l.take (k * n.factorial) = l.filter fun perm => perm.headD 0 < k := by
  have hkeys : l.Pairwise fun a b => a.headD 0 ≤ b.headD 0 :=
    hascending.imp fun h => headD_le_headD_of_lt h
  have hlength : (l.filter fun perm => perm.headD 0 < k).length = k * n.factorial := by
    rw [← flatMap_range_filter hkeys, List.length_flatMap, List.map_congr_left fun a ha =>
      length_filter_headD_eq (by have := List.mem_range.mp ha; omega)
        (hascending.imp fun h => h.ne) hl]
    simp
  rw [← hlength]
  refine (filter_eq_take (hkeys.imp fun {a b} hle hb => ?_)).symm
  rw [decide_eq_true_iff] at hb ⊢
  omega

/-! ### The search and its cap -/

theorem pairwise_occurrences_alike : ((ofGraph (Graph.alike 21).view).occurrences none
    (Graph.alike 21).view).Pairwise (· < ·) :=
  pairwise_lt_occurrences (inRange_ofGraph _) (by decide +kernel)

/-- **The matches of 21 alike nodes** in themselves by their first images. -/
theorem take_occurrences_alike {k : Nat} (hk : k ≤ 21) :
    ((ofGraph (Graph.alike 21).view).occurrences none (Graph.alike 21).view).take
        (k * Nat.factorial 20) =
      ((ofGraph (Graph.alike 21).view).occurrences none (Graph.alike 21).view).filter
        fun perm => perm.headD 0 < k :=
  take_eq_filter_headD_lt hk pairwise_occurrences_alike fun _ =>
    (mem_occurrences_iff (inRange_ofGraph _)).trans isMatch_alike_iff

/-- What is met before the cap begins with at most 7. -/
theorem headD_lt_of_mem_take_countLimit (h : perm ∈ ((ofGraph (Graph.alike 21).view).occurrences
    none (Graph.alike 21).view).take countLimit) : perm.headD 0 < 8 := by
  have hcount : countLimit ≤ 8 * Nat.factorial 20 := by decide
  have hmem := List.take_subset_take_left _ hcount h
  rw [take_occurrences_alike (by decide), List.mem_filter] at hmem
  exact of_decide_eq_true hmem.2

/-- What begins with less than 7 is met before the cap. -/
theorem mem_take_countLimit_of_headD_lt (hlt : perm.headD 0 < 7)
    (h : perm ∈ (ofGraph (Graph.alike 21).view).occurrences none (Graph.alike 21).view) :
    perm ∈ ((ofGraph (Graph.alike 21).view).occurrences none (Graph.alike 21).view).take
      countLimit := by
  have hcount : 7 * Nat.factorial 20 ≤ countLimit := by decide
  refine List.take_subset_take_left _ hcount ?_
  rw [take_occurrences_alike (by decide), List.mem_filter]
  exact ⟨h, decide_eq_true hlt⟩

/-- **Up to its cap** the search for the automorphisms of a sieve for 21 tags finds those that
begin with less than 7, if none begins with 7. -/
theorem state_automorphismSearch_sieve (htags : tags.length = 21)
    (hascending : ((sieve tags).occurrences none (Graph.scattered tags).view).Pairwise (· < ·))
    (hgap : ∀ perm ∈ (sieve tags).occurrences none (Graph.scattered tags).view,
      perm.headD 0 ≠ 7) (limit : Nat) :
    ((sieve tags).automorphismSearch limit).state = (List.range 21 ::
      ((sieve tags).occurrences none (Graph.scattered tags).view).filter
        fun perm => perm.headD 0 < 7 ∧ perm ≠ List.range 21).take (max limit 1 + 1) := by
  have hgraph : (sieve tags).graph = (Graph.alike 21).view :=
    congrArg (fun n => (Graph.alike n).view) htags
  have hkept (perm : List Nat) :
      perm ∈ ((ofGraph (sieve tags).graph).occurrences none (sieve tags).graph).filter
        (sieve tags).keeps ↔
      perm ∈ (sieve tags).occurrences none (Graph.scattered tags).view ∧
        perm ≠ List.range 21 := by
    rw [mem_filter_keeps_iff, isSymmetry_sieve_iff, mem_occurrences_iff (inRange_sieve tags),
      nodeCount_graph_sieve, htags]
  rw [hgraph] at hkept
  rw [state_automorphismSearch_eq, nodeCount_graph_sieve, htags, hgraph]
  refine congrArg (fun rest => (List.range 21 :: rest).take (max limit 1 + 1)) ?_
  -- Both lists ascend, so that their members are compared.
  refine ((pairwise_occurrences_alike.sublist (List.take_sublist ..)).filter _).eq_of_mem_iff
    (hascending.filter _) fun perm => ?_
  rw [List.mem_filter, List.mem_filter, decide_eq_true_iff]
  constructor
  · rintro ⟨htake, hkeeps⟩
    have hlt := headD_lt_of_mem_take_countLimit htake
    obtain ⟨hmem, hne⟩ :=
      (hkept perm).mp (List.mem_filter.mpr ⟨List.mem_of_mem_take htake, hkeeps⟩)
    have hhead := hgap perm hmem
    exact ⟨hmem, by omega, hne⟩
  · rintro ⟨hmem, hlt, hne⟩
    obtain ⟨hall, hkeeps⟩ := List.mem_filter.mp ((hkept perm).mpr ⟨hmem, hne⟩)
    exact ⟨mem_take_countLimit_of_headD_lt hlt hall, hkeeps⟩

/-- Tags of which only the first and the last are the same. -/
def twinTags : List String :=
  ["twin", "b", "c", "d", "e", "f", "g", "h", "i", "j", "k", "l", "m", "n", "o", "p", "q", "r",
    "s", "t", "twin"]

/-- The first node and the last are exchanged. -/
def twinExchange : List Nat := 20 :: (List.range' 1 19 ++ [0])

theorem occurrences_twins : (sieve twinTags).occurrences none (Graph.scattered twinTags).view =
    [List.range 21, twinExchange] := by decide +kernel

/-- Twins are not found to be exchangeable, and this is not told. -/
theorem automorphisms_twins : (sieve twinTags).automorphisms 2 = ⟨21, [List.range 21], false⟩ := by
  have hstate := @state_automorphismSearch_sieve twinTags rfl
    (by rw [occurrences_twins]; decide) (by rw [occurrences_twins]; decide) 2
  have hfound : [List.range 21, twinExchange].filter
      (fun perm => perm.headD 0 < 7 ∧ perm ≠ List.range 21) = [] := by decide +kernel
  rw [occurrences_twins, hfound] at hstate
  rw [automorphisms, ← automorphismSearch, hstate]
  exact congrArg (Automorphisms.mk 21 · false) (List.mergeSort_singleton _)

end Pattern

end GraphGrammar
