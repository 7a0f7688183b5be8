import GraphGrammar.Proofs.Matching.Ordered
import GraphGrammar.Proofs.Symmetry.Group
import Mathlib.Data.List.Permutation

/-!
# The search for automorphisms

The search for automorphisms goes through the matches of the graph in itself. It starts with the
identity and adds what else it meets and is to be kept, until there are more than the limit. So it
finds the first members of one list of all symmetries.

The search has a cap as well, the largest number of matches that can be counted, and this cap counts
what is met and not kept. A search that ends there is not told from one that met everything. Few
nodes, few matches, or no constraint together with a limit that can be passed, keep a search from
its cap.

## Main definitions

* `GraphGrammar.Pattern.automorphismSearch` — the search.
* `GraphGrammar.Pattern.allAutomorphisms` — all symmetries, in the order in which they are met.
* `GraphGrammar.Pattern.BelowCap` — what keeps the search from its cap.

## Main results

* `GraphGrammar.Pattern.state_automorphismSearch_eq` — what is found.
* `GraphGrammar.Pattern.state_automorphismSearch` — what is found below the cap.
* `GraphGrammar.Pattern.mem_automorphisms_iff` — a list that was not cut off lists the symmetries.
-/

namespace GraphGrammar

namespace Pattern

variable {p : Pattern} {perm : List Nat} {limit : Nat}

/-! ### What is kept -/

/-- Whether the listener keeps a match of the graph in itself. -/
def keeps (p : Pattern) (perm : List Nat) : Bool :=
  !(perm == List.range perm.length || !p.fixesConstraints perm)

/-- The listener keeps what is to be kept among the hits, until there are more than the limit. -/
theorem hear_keepAutomorphisms {hits : List Hit} {found : List (List Nat)}
    (h : found.length ≤ limit) : ((p.keepAutomorphisms limit).hear hits found).1 =
      (found ++ (hits.map fun hit => hit.occurrence.images).filter p.keeps).take (limit + 1) := by
  induction hits generalizing found with
  | nil =>
    rw [List.map_nil, List.filter_nil, List.append_nil, List.take_of_length_le (by omega)]
    rfl
  | cons hit hits ih =>
    rw [Listener.hear, List.map_cons, List.filter_cons]
    cases hkeeps : p.keeps hit.occurrence.images with
    | false =>
      have hstep : p.keepAutomorphisms limit found hit = (found, .proceed) := by
        rw [keepAutomorphisms, if_pos (Bool.not_eq_false' .. ▸ hkeeps)]
      rw [untilHalted_cons hstep]
      exact ih h
    | true =>
      have hskip := Bool.not_eq_true' _ ▸ hkeeps
      rw [if_pos rfl, List.append_cons]
      by_cases hfull : limit < found.length + 1
      · have hstep : p.keepAutomorphisms limit found hit =
            (found ++ [hit.occurrence.images], .stop) := by
          rw [keepAutomorphisms, hskip, if_neg Bool.false_ne_true, if_pos hfull]
        rw [untilHalted, hstep, List.take_left']
        rw [List.length_append, List.length_singleton]
        omega
      · have hstep : p.keepAutomorphisms limit found hit =
            (found ++ [hit.occurrence.images], .proceed) := by
          rw [keepAutomorphisms, hskip, if_neg Bool.false_ne_true, if_neg hfull]
        rw [untilHalted_cons hstep]
        exact ih (by rw [List.length_append, List.length_singleton]; omega)

/-! ### All symmetries -/

/-- A symmetry is a match of the graph in itself. -/
theorem IsSymmetry.isMatch (h : p.IsSymmetry perm) : (ofGraph p.graph).IsMatch p.graph perm :=
  map_range_getD h.length_eq ▸ h.isIso.isMatch

/-- The automorphisms in the order in which a search meets them, the identity first. -/
def allAutomorphisms (p : Pattern) : List (List Nat) :=
  List.range p.graph.nodeCount :: ((ofGraph p.graph).occurrences none p.graph).filter p.keeps

/-- What is kept of the matches are the symmetries other than the identity. -/
theorem mem_filter_keeps_iff : perm ∈ ((ofGraph p.graph).occurrences none p.graph).filter p.keeps ↔
    p.IsSymmetry perm ∧ perm ≠ List.range p.graph.nodeCount := by
  rw [List.mem_filter, mem_occurrences_iff (inRange_ofGraph p.graph), keeps, Bool.not_eq_true',
    Bool.or_eq_false_iff, beq_eq_false_iff_ne, Bool.not_eq_false']
  constructor
  · rintro ⟨hmatch, hne, hfixes⟩
    exact ⟨isSymmetry_of_isMatch hmatch hfixes, hmatch.length_eq ▸ hne⟩
  · rintro ⟨h, hne⟩
    exact ⟨h.isMatch, h.length_eq.symm ▸ hne, h.fixes⟩

theorem mem_allAutomorphisms_iff : perm ∈ p.allAutomorphisms ↔ p.IsSymmetry perm := by
  rw [allAutomorphisms, List.mem_cons, mem_filter_keeps_iff]
  constructor
  · rintro (rfl | ⟨h, -⟩)
    · exact p.isSymmetry_range
    · exact h
  · intro h
    by_cases hidentity : perm = List.range p.graph.nodeCount
    · exact .inl hidentity
    · exact .inr ⟨h, hidentity⟩

/-- The identity is not kept when it is met again. -/
theorem nodup_allAutomorphisms (p : Pattern) : p.allAutomorphisms.Nodup :=
  List.nodup_cons.mpr ⟨fun hmem => (mem_filter_keeps_iff.mp hmem).2 rfl,
    (nodup_occurrences (inRange_ofGraph _)).filter _⟩

/-! ### The search -/

/-- The search for automorphisms. -/
def automorphismSearch (p : Pattern) (limit : Nat) : Tally (List (List Nat)) :=
  searchOne countLimit (p.keepAutomorphisms (max limit 1)) (ofGraph p.graph) none p.graph
    [List.range p.graph.nodeCount]

/-- **What is found** are the identity and what is to be kept among as many matches as can be
counted, up to one more than the limit. -/
theorem state_automorphismSearch_eq (p : Pattern) (limit : Nat) :
    (p.automorphismSearch limit).state = (List.range p.graph.nodeCount ::
      (((ofGraph p.graph).occurrences none p.graph).take countLimit).filter p.keeps).take
        (max limit 1 + 1) := by
  have hfound : [List.range p.graph.nodeCount].length ≤ max limit 1 := Nat.le_max_right ..
  rw [automorphismSearch, searchOne_state_eq_take, hear_keepAutomorphisms hfound,
    List.singleton_append, List.map_take, map_images_hits]

/-- The identity is found, and no more than one more than the limit. -/
theorem exists_state_automorphismSearch (p : Pattern) (limit : Nat) :
    ∃ rest, (p.automorphismSearch limit).state = List.range p.graph.nodeCount :: rest ∧
      (p.automorphismSearch limit).state <+: p.allAutomorphisms ∧
      (p.automorphismSearch limit).state.length ≤ max limit 1 + 1 := by
  rw [state_automorphismSearch_eq, List.take_succ_cons]
  refine ⟨_, rfl, (List.prefix_cons_inj _).mpr ?_, ?_⟩
  · exact (List.take_prefix _ _).trans ((List.take_prefix _ _).filter p.keeps)
  · rw [List.length_cons, List.length_take]
    exact Nat.succ_le_succ (Nat.min_le_left ..)

/-- If the listener hears of all hits, it keeps the first of all automorphisms, up to one more than
the limit. -/
theorem hear_keepAutomorphisms_hits (p : Pattern) (limit : Nat) :
    ((p.keepAutomorphisms (max limit 1)).hear ((ofGraph p.graph).hits none p.graph 0)
      [List.range p.graph.nodeCount]).1 = p.allAutomorphisms.take (max limit 1 + 1) := by
  have hfound : [List.range p.graph.nodeCount].length ≤ max limit 1 := Nat.le_max_right ..
  rw [hear_keepAutomorphisms hfound, map_images_hits, allAutomorphisms, List.singleton_append]

/-! ### Searches that do not meet the cap -/

/-- A pattern with at most 20 nodes does not have as many permutations as can be counted, so that
the cap is not met. -/
theorem hits_automorphismSearch_lt (hp : p.graph.nodeCount ≤ 20) (limit : Nat) :
    (p.automorphismSearch limit).hits < countLimit := by
  have hperm : (ofGraph p.graph).occurrences none p.graph ⊆
      (List.range p.graph.nodeCount).permutations := by
    intro perm hmem
    have hmatch := (mem_occurrences_iff (inRange_ofGraph p.graph)).mp hmem
    rw [List.mem_permutations]
    exact perm_range_of_nodup hmatch.nodup hmatch.lt_nodeCount hmatch.length_eq.ge
  have hcount : ((ofGraph p.graph).occurrences none p.graph).length ≤
      p.graph.nodeCount.factorial := by
    have hle := (List.subperm_of_subset (nodup_occurrences (inRange_ofGraph _)) hperm).length_le
    rwa [List.length_permutations, List.length_range] at hle
  calc (p.automorphismSearch limit).hits
      ≤ ((ofGraph p.graph).occurrences none p.graph).length := hits_searchOne_le ..
    _ ≤ Nat.factorial 20 := hcount.trans (Nat.factorial_le hp)
    _ < countLimit := by decide

/-- A hit is kept, or it is one of those that are not. -/
theorem length_keepAutomorphisms (p : Pattern) (limit : Nat) (found : List (List Nat)) (hit : Hit) :
    (p.keepAutomorphisms limit found hit).1.length +
      (if !p.keeps hit.occurrence.images then 1 else 0) = found.length + 1 := by
  rw [keepAutomorphisms]
  cases hkeeps : p.keeps hit.occurrence.images with
  | false =>
    rw [if_pos (Bool.not_eq_false' .. ▸ hkeeps)]
    rfl
  | true =>
    have hskip := Bool.not_eq_true' _ ▸ hkeeps
    rw [hskip, if_neg Bool.false_ne_true]
    exact List.length_append

/-- So there are no more hits than what is kept and what is not. -/
theorem hits_keepAutomorphisms_le (p : Pattern) (limit : Nat) (hits : List Hit)
    (s : Tally (List (List Nat))) :
    (untilHalted (fun hit s => s.deliver (p.keepAutomorphisms limit) hit) hits s).1.hits +
        s.state.length ≤
      s.hits + (untilHalted (fun hit s => s.deliver (p.keepAutomorphisms limit) hit)
        hits s).1.state.length + hits.countP fun hit => !p.keeps hit.occurrence.images := by
  refine untilHalted_countP_le Tally.hits (fun s => s.state.length) _ (fun hit s => ?_) hits s
  have hlength := p.length_keepAutomorphisms limit s.state hit
  rw [Tally.deliver]
  split
  · exact Nat.le_add_right _ _
  · dsimp only
    omega

/-- Without constraints only the identity is met and not kept, so that no more is met than found. -/
theorem hits_automorphismSearch_le_of_constraints_eq_nil (hp : p.constraints = [])
    (limit : Nat) :
    (p.automorphismSearch limit).hits ≤ (p.automorphismSearch limit).state.length := by
  have hle := p.hits_keepAutomorphisms_le (max limit 1) ((ofGraph p.graph).hits none p.graph 0)
    ⟨[List.range p.graph.nodeCount], countLimit, 0⟩
  rw [← searchPattern_fst_eq, ← searchOne, ← automorphismSearch] at hle
  have hidentity : ∀ perm ∈ (ofGraph p.graph).occurrences none p.graph,
      (!p.keeps perm) = true → (perm == List.range p.graph.nodeCount) = true := by
    intro perm hmem hkeeps
    have hmatch := (mem_occurrences_iff (inRange_ofGraph p.graph)).mp hmem
    rw [keeps, fixesConstraints, hp, List.all_nil, Bool.not_true, Bool.or_false, Bool.not_not,
      hmatch.length_eq] at hkeeps
    exact hkeeps
  have hmet : ((ofGraph p.graph).hits none p.graph 0).countP
      (fun hit => !p.keeps hit.occurrence.images) ≤ 1 := by
    rw [hits, List.countP_map]
    exact (List.countP_mono_left hidentity).trans
      (List.nodup_iff_count_le_one.mp (nodup_occurrences (inRange_ofGraph p.graph)) _)
  dsimp only [List.length_singleton] at hle
  omega

/-- What keeps the search for automorphisms from its cap. -/
inductive BelowCap (p : Pattern) (limit : Nat) : Prop where
  /-- So few nodes do not have as many permutations as can be counted. -/
  | few_nodes (hnodes : p.graph.nodeCount ≤ 20)
  /-- Without constraints all that is met is kept, and the limit is passed before the cap. -/
  | unconstrained (hconstraints : p.constraints = []) (hlimit : max limit 1 < countLimit)
  /-- The matches of the graph in itself can be counted. -/
  | few_matches
      (hmatches : {perm | (ofGraph p.graph).IsMatch p.graph perm}.ncard ≤ countLimit)
  /-- Fewer matches are met than can be counted. -/
  | few_hits (hhits : (p.automorphismSearch limit).hits < countLimit)

/-- A search that met fewer matches than can be counted finds the first of all symmetries. -/
theorem state_automorphismSearch_of_hits_lt
    (hhits : (p.automorphismSearch limit).hits < countLimit) :
    (p.automorphismSearch limit).state = p.allAutomorphisms.take (max limit 1 + 1) := by
  rw [automorphismSearch, searchOne_state_of_hits_lt _ _ _ hhits, hear_keepAutomorphisms_hits]

/-- **Below the cap** the search finds the first of all symmetries, up to one more than the
limit. -/
theorem state_automorphismSearch (hcap : p.BelowCap limit) :
    (p.automorphismSearch limit).state = p.allAutomorphisms.take (max limit 1 + 1) := by
  cases hcap with
  | few_nodes hnodes =>
    exact state_automorphismSearch_of_hits_lt (hits_automorphismSearch_lt hnodes limit)
  | unconstrained hconstraints hlimit =>
    have hmet := hits_automorphismSearch_le_of_constraints_eq_nil hconstraints limit
    by_cases hhits : (p.automorphismSearch limit).hits < countLimit
    · exact state_automorphismSearch_of_hits_lt hhits
    · -- At the cap there is nothing left to be found up to the limit.
      obtain ⟨-, -, hfirst, hlength⟩ := p.exists_state_automorphismSearch limit
      have hfull : (p.automorphismSearch limit).state.length = max limit 1 + 1 := by omega
      exact hfull ▸ List.prefix_iff_eq_take.mp hfirst
  | few_matches hmatches =>
    rw [ncard_isMatch (inRange_ofGraph p.graph)] at hmatches
    rw [automorphismSearch, searchOne_state _ _ _ hmatches, hear_keepAutomorphisms_hits]
  | few_hits hhits => exact state_automorphismSearch_of_hits_lt hhits

/-! ### What is given -/

/-- What is given is what the search found, up to the limit and in ascending order. -/
theorem permutations_automorphisms_perm (p : Pattern) (limit : Nat) :
    (p.automorphisms limit).permutations.Perm
      ((p.automorphismSearch limit).state.take (max limit 1)) :=
  List.mergeSort_perm _ _

/-- Below the cap, it is told whether anything was cut off. -/
theorem truncated_automorphisms_iff (hcap : p.BelowCap limit) :
    (p.automorphisms limit).truncated = true ↔ max limit 1 < p.allAutomorphisms.length := by
  have htruncated : (p.automorphisms limit).truncated =
      decide (max limit 1 < (p.automorphismSearch limit).state.length) := rfl
  rw [htruncated, decide_eq_true_iff, state_automorphismSearch hcap, List.length_take]
  omega

/-- **A complete list of automorphisms**, cut off neither by the limit nor by the cap, lists the
symmetries. -/
theorem mem_automorphisms_iff (hcap : p.BelowCap limit)
    (htruncated : (p.automorphisms limit).truncated = false) :
    perm ∈ (p.automorphisms limit).permutations ↔ p.IsSymmetry perm := by
  have hlength : p.allAutomorphisms.length ≤ max limit 1 := by
    rw [← Nat.not_lt, ← truncated_automorphisms_iff hcap, htruncated]
    exact Bool.false_ne_true
  rw [(p.permutations_automorphisms_perm limit).mem_iff, state_automorphismSearch hcap,
    List.take_of_length_le (hlength.trans (Nat.le_succ _)), List.take_of_length_le hlength,
    mem_allAutomorphisms_iff]

end Pattern

end GraphGrammar
