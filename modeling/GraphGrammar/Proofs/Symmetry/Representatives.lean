import GraphGrammar.Proofs.Symmetry.Sieve

/-!
# Representatives of symmetric matches

The matches of a pattern fall into classes, in which they follow from each other by symmetries of
the pattern. A search with the order of the automorphisms that were found reports a match of every
class: the steps down to a smallest match are symmetries, and so is all of them together. If no
automorphism is missing, the smallest match of a class is compared with every other one, and only
one is reported. One may be missing without notice where the search for automorphisms ended at its
cap, and then two equivalent matches may be reported.

## Main results

* `GraphGrammar.Pattern.exists_equivalent_isLeast` — every class has an admitted match.
* `GraphGrammar.Pattern.Equivalent.eq_of_isLeast` — it has one only, if all symmetries are compared.
* `GraphGrammar.searchOne_reports_representatives` — what a search reports of every class.
* `GraphGrammar.searchOne_reports_both_twins` — two equivalent matches that are reported.
-/

namespace GraphGrammar

namespace Pattern

variable {p : Pattern} {t : GraphView} {o : SymmetryOrder} {m m' : List Nat}

/-! ### Smallest matches of a class -/

/-- **Every class has an admitted match**, as long as only symmetries are compared with. -/
theorem exists_equivalent_isLeast (hp : p.inRange = true) (hsize : o.size = p.graph.nodeCount)
    (hsymmetry : ∀ perm ∈ o.permutations, p.IsSymmetry perm) (hm : p.IsMatch t m) :
    ∃ m', p.Equivalent m m' ∧ p.IsMatch t m' ∧ o.isLeast m' = true := by
  obtain ⟨m', hpath, hmatch, hleast⟩ := exists_isLeast hp hsize hsymmetry hm
  refine ⟨m', ?_, hmatch, hleast⟩
  clear hmatch hleast
  induction hpath with
  | refl => exact Equivalent.refl hm
  | tail _ hstep ih =>
    obtain ⟨-, perm, hperm, rfl⟩ := hstep
    exact ih.trans hp ⟨perm, hsymmetry perm hperm, rfl⟩

/-- An admitted match is not above an equivalent one, if all symmetries are compared with. -/
theorem Equivalent.not_lt (h : p.Equivalent m m') (hm : p.IsMatch t m)
    (hcomplete : ∀ perm, p.IsSymmetry perm → perm ≠ List.range p.graph.nodeCount →
      perm ∈ o.permutations) (hleast : o.isLeast m = true) : ¬m' < m := by
  obtain ⟨perm, hperm, rfl⟩ := h
  by_cases hidentity : perm = List.range p.graph.nodeCount
  · rw [hidentity, ← hm.length_eq, permuted_range]
    exact List.lt_irrefl m
  · exact not_permuted_lt hleast (hcomplete perm hperm hidentity)
      (hperm.length_eq.trans hm.length_eq.symm) fun v hv => hm.length_eq ▸ hperm.mem_lt hv

/-- **No class has two admitted matches**, if all symmetries are compared with. -/
theorem Equivalent.eq_of_isLeast (h : p.Equivalent m m') (hp : p.inRange = true)
    (hm : p.IsMatch t m) (hm' : p.IsMatch t m')
    (hcomplete : ∀ perm, p.IsSymmetry perm → perm ≠ List.range p.graph.nodeCount →
      perm ∈ o.permutations) (hleast : o.isLeast m = true) (hleast' : o.isLeast m' = true) :
    m = m' :=
  List.le_antisymm (List.not_lt.mp (h.not_lt hm hcomplete hleast))
    (List.not_lt.mp ((h.symm hp hm).not_lt hm' hcomplete hleast'))

end Pattern

/-! ### What is reported of every class -/

/-- **One representative of every class of symmetric matches.** What follows from a match by a
symmetry is a match. A search with the order of the automorphisms found reports a match of every
class, and exactly one if the list of automorphisms was cut off neither by the limit nor by the cap
of the search for them. -/
theorem searchOne_reports_representatives {σ : Type} {p : Pattern} {t : GraphView}
    (hp : p.inRange = true) (limit : Nat) {maxHits : Nat}
    (hcap : (p.occurrences (some (p.automorphisms limit).order) t).length ≤ maxHits)
    {report : Listener σ} (hproceed : ∀ s hit, (report s hit).2 = .proceed) (s : σ) :
    (∀ m perm, p.IsMatch t m → p.IsSymmetry perm → p.IsMatch t (Pattern.permuted perm m)) ∧
      ∃ found : List (List Nat),
        (searchOne maxHits report p (some (p.automorphisms limit).order) t s).state =
          found.foldl (fun s m => (report s ⟨0, ⟨m⟩⟩).1) s ∧
        found.Nodup ∧ (∀ m ∈ found, p.IsMatch t m) ∧
        (∀ m, p.IsMatch t m → ∃ m' ∈ found, p.Equivalent m m') ∧
        ((p.automorphisms limit).truncated = false → p.BelowCap limit →
          ∀ m, p.IsMatch t m → ∃! m', m' ∈ found ∧ p.Equivalent m m') := by
  have hsize : (p.automorphisms limit).order.size = p.graph.nodeCount := rfl
  have hmem : ∀ m, m ∈ p.occurrences (some (p.automorphisms limit).order) t ↔
      p.IsMatch t m ∧ (p.automorphisms limit).order.isLeast m = true := fun m =>
    Pattern.mem_occurrences_some_iff hp hsize
  have hsymmetry : ∀ perm ∈ (p.automorphisms limit).order.permutations, p.IsSymmetry perm := by
    intro perm hperm
    obtain ⟨hperm, -, hne⟩ := SymmetryOrder.mem_ofPermutations_iff.mp hperm
    exact Pattern.isSymmetry_of_mem_automorphisms hperm hne
  have hexists : ∀ m, p.IsMatch t m →
      ∃ m' ∈ p.occurrences (some (p.automorphisms limit).order) t, p.Equivalent m m' := by
    intro m hm
    obtain ⟨m', hequivalent, hm', hleast⟩ :=
      Pattern.exists_equivalent_isLeast hp hsize hsymmetry hm
    exact ⟨m', (hmem m').mpr ⟨hm', hleast⟩, hequivalent⟩
  refine ⟨fun m perm hm hperm => hm.permuted hperm hp, p.occurrences _ t, ?_,
    Pattern.nodup_occurrences_some hp hsize, fun m hm => ((hmem m).mp hm).1, hexists,
    fun htruncated hbelow m hm => ?_⟩
  · rw [searchOne_state p _ t hcap, Listener.hear,
      untilHalted_eq_foldl fun hit _ s => hproceed s hit, Pattern.hits, List.foldl_map]
  · have hcomplete : ∀ perm, p.IsSymmetry perm → perm ≠ List.range p.graph.nodeCount →
        perm ∈ (p.automorphisms limit).order.permutations := fun perm hperm hne =>
      SymmetryOrder.mem_ofPermutations_iff.mpr
        ⟨(Pattern.mem_automorphisms_iff hbelow htruncated).mpr hperm, hperm.length_eq, hne⟩
    obtain ⟨m', hm', hequivalent⟩ := hexists m hm
    refine ⟨m', ⟨hm', hequivalent⟩, fun m'' h => ?_⟩
    obtain ⟨hm'', hequivalent''⟩ := h
    obtain ⟨hmatch', hleast'⟩ := (hmem m').mp hm'
    obtain ⟨hmatch'', hleast''⟩ := (hmem m'').mp hm''
    exact ((hequivalent''.symm hp hm).trans hp hequivalent).eq_of_isLeast hp hmatch'' hmatch'
      hcomplete hleast'' hleast'

/-- Two equivalent matches are reported where the search for automorphisms ended at its cap, though
the list that was found is not said to be cut off. -/
theorem searchOne_reports_both_twins :
    (Pattern.sieve Pattern.twinTags).inRange = true ∧
    ((Pattern.sieve Pattern.twinTags).automorphisms 2).truncated = false ∧
    (searchOne 3 storeHits (Pattern.sieve Pattern.twinTags)
      (some ((Pattern.sieve Pattern.twinTags).automorphisms 2).order)
      (Graph.scattered Pattern.twinTags).view []).state.map (fun hit => hit.occurrence.images) =
        [List.range 21, Pattern.twinExchange] ∧
    (Pattern.sieve Pattern.twinTags).IsMatch (Graph.scattered Pattern.twinTags).view
      (List.range 21) ∧
    (Pattern.sieve Pattern.twinTags).Equivalent (List.range 21) Pattern.twinExchange ∧
    List.range 21 ≠ Pattern.twinExchange := by
  have hp := Pattern.inRange_sieve Pattern.twinTags
  have hmatch : ∀ m ∈ [List.range 21, Pattern.twinExchange],
      (Pattern.sieve Pattern.twinTags).IsMatch (Graph.scattered Pattern.twinTags).view m := by
    rw [← Pattern.occurrences_twins]
    exact fun m hm => (Pattern.mem_occurrences_iff hp).mp hm
  have hidentity := hmatch (List.range 21) (List.mem_cons_self ..)
  have hexchange := hmatch Pattern.twinExchange (List.mem_cons_of_mem _ (List.mem_singleton_self _))
  refine ⟨hp, ?_, ?_, hidentity, ⟨_, Pattern.isSymmetry_sieve_iff.mpr hexchange, ?_⟩, by decide⟩
  · rw [Pattern.automorphisms_twins]
  · rw [Pattern.automorphisms_twins]
    decide +kernel
  · decide

/-- Two edges from a centre to nodes of any label that are not joined. -/
def Pattern.fork : Pattern :=
  ⟨(⟨["a", "*", "*"], [⟨0, 1, "-"⟩, ⟨2, 0, "-"⟩], by decide⟩ : Graph).view,
    [.noEdge 1 2, .noEdge 2 1], some "*"⟩

/-- A centre with three rays. -/
def Graph.claw : Graph :=
  ⟨["a", "b", "c", "b"], [⟨0, 1, "-"⟩, ⟨0, 2, "-"⟩, ⟨0, 3, "-"⟩], by decide⟩

/-- A fork occurs six times in a claw, and every match has the one that exchanges its two ends as
its companion, of which one is reported. -/
theorem searchOne_reports_representatives_fork : Pattern.fork.inRange = true ∧
    (Pattern.fork.occurrences (some (Pattern.fork.automorphisms 2).order)
      Graph.claw.view).length ≤ 6 ∧
    (Pattern.fork.automorphisms 2).truncated = false ∧ Pattern.fork.BelowCap 2 ∧
    ∃ found : List (List Nat),
      (searchOne 6 storeHits Pattern.fork (some (Pattern.fork.automorphisms 2).order)
        Graph.claw.view []).state = found.foldl (fun s m => (storeHits s ⟨0, ⟨m⟩⟩).1) [] ∧
      found.Nodup ∧ (∀ m ∈ found, Pattern.fork.IsMatch Graph.claw.view m) ∧
      ∀ m, Pattern.fork.IsMatch Graph.claw.view m →
        ∃! m', m' ∈ found ∧ Pattern.fork.Equivalent m m' := by
  have hp : Pattern.fork.inRange = true := by decide +kernel
  have hcap : (Pattern.fork.occurrences (some (Pattern.fork.automorphisms 2).order)
      Graph.claw.view).length ≤ 6 :=
    (Pattern.length_occurrences_le hp rfl).trans (by decide +kernel)
  have htruncated : (Pattern.fork.automorphisms 2).truncated = false := by decide +kernel
  have hbelow : Pattern.fork.BelowCap 2 := .few_nodes (by decide)
  obtain ⟨-, found, hstate, hnodup, hmatches, -, hunique⟩ :=
    searchOne_reports_representatives hp 2 hcap
      (fun _ _ => rfl : ∀ s hit, (storeHits s hit).2 = .proceed) []
  exact ⟨hp, hcap, htruncated, hbelow, found, hstate, hnodup, hmatches,
    hunique htruncated hbelow⟩

end GraphGrammar
