import GraphGrammar.Proofs.Matching.Search
import GraphGrammar.Proofs.Symmetry.Automorphisms

/-!
# Searches with a symmetry order

A search with a symmetry order rejects a placement as soon as an image is too large, and lets pass
what cannot be compared yet. It reports those matches that are lexicographically smallest among
their comparisons. Among the matches that follow from one match by permutations of the order, such a
match is always found: a match that is not smallest is above another one.

## Main results

* `GraphGrammar.Pattern.occurrences_some_eq_filter` — the matches that are reported.
* `GraphGrammar.Pattern.length_occurrences_le` — how many there are.
* `GraphGrammar.Pattern.exists_isLeast` — every match leads to one that is reported.
* `GraphGrammar.searchOne_some_eq_filter` — a search with an order against a search whose hits are
  filtered afterwards.
-/

namespace GraphGrammar

namespace SymmetryOrder

variable {o : SymmetryOrder} {image image' : Nat → Option Nat}

/-- With fewer images less can be compared. -/
theorem notAbove_mono (h : ∀ v a, image v = some a → image' v = some a) {pairs : List (Nat × Nat)}
    (hpairs : notAbove image' pairs = true) : notAbove image pairs = true := by
  induction pairs with
  | nil => rfl
  | cons pair pairs ih =>
    obtain ⟨v, w⟩ := pair
    rw [notAbove] at hpairs ⊢
    cases hv : image v with
    | none => rfl
    | some a =>
      cases hw : image w with
      | none => rfl
      | some b =>
        simp only [h v a hv, h w b hw] at hpairs ⊢
        split at hpairs
        · next hlt => rw [if_pos hlt]
        · next hge =>
          rw [if_neg hge]
          split at hpairs
          · cases hpairs
          · next hle => rw [if_neg hle, ih hpairs]

theorem admits_mono (h : ∀ v a, image v = some a → image' v = some a)
    (hadmits : o.admits image' = true) : o.admits image = true :=
  List.all_eq_true.mpr fun p hp => notAbove_mono h (List.all_eq_true.mp hadmits p hp)

theorem admits_none (o : SymmetryOrder) : o.admits (fun _ => none) = true := by
  refine List.all_eq_true.mpr fun p _ => ?_
  cases p.zipIdx.map Prod.swap <;> rfl

/-- A comparison that fails compares with something smaller. -/
theorem lt_of_notAbove_eq_false {pairs : List (Nat × Nat)} (h : notAbove image pairs = false) :
    (pairs.map fun pair => (image pair.2).getD 0) <
      pairs.map fun pair => (image pair.1).getD 0 := by
  induction pairs with
  | nil => cases h
  | cons pair pairs ih =>
    obtain ⟨v, w⟩ := pair
    rw [notAbove] at h
    rw [List.map_cons, List.map_cons, List.cons_lt_cons_iff]
    cases hv : image v with
    | none => simp [hv] at h
    | some a =>
      cases hw : image w with
      | none => simp [hv, hw] at h
      | some b =>
        simp only [hv, hw] at h
        simp only [Option.getD_some]
        split at h
        · cases h
        · next hge =>
          split at h
          · next hlt => exact .inl hlt
          · next hle => exact .inr ⟨by omega, ih h⟩

/-- A comparison that passes does not compare with something smaller, if no image is missing. -/
theorem not_lt_of_notAbove {pairs : List (Nat × Nat)}
    (hsome : ∀ pair ∈ pairs, (image pair.1).isSome ∧ (image pair.2).isSome)
    (h : notAbove image pairs = true) : ¬((pairs.map fun pair => (image pair.2).getD 0) <
      pairs.map fun pair => (image pair.1).getD 0) := by
  induction pairs with
  | nil => exact List.lt_irrefl _
  | cons pair pairs ih =>
    obtain ⟨v, w⟩ := pair
    obtain ⟨hv, hw⟩ := hsome _ (List.mem_cons_self ..)
    obtain ⟨a, hv⟩ := Option.isSome_iff_exists.mp hv
    obtain ⟨b, hw⟩ := Option.isSome_iff_exists.mp hw
    rw [notAbove] at h
    rw [List.map_cons, List.map_cons, List.cons_lt_cons_iff]
    simp only at hv hw
    simp only [hv, hw, Option.getD_some] at h ⊢
    rintro (hlt | ⟨rfl, hlt⟩)
    · rw [if_neg (Nat.lt_asymm hlt), if_pos hlt] at h
      cases h
    · rw [if_neg (Nat.lt_irrefl _), if_neg (Nat.lt_irrefl _)] at h
      exact ih (fun pair hpair => hsome pair (List.mem_cons_of_mem _ hpair)) h hlt

/-- The permutations of an order are the listed ones of the right length, the identity excepted. -/
theorem mem_ofPermutations_iff {size : Nat} {permutations : List (List Nat)} {perm : List Nat} :
    perm ∈ (ofPermutations size permutations).permutations ↔
      perm ∈ permutations ∧ perm.length = size ∧ perm ≠ List.range size := by
  rw [ofPermutations, List.mem_filter, Bool.and_eq_true, beq_iff_eq, bne_iff_ne]
  refine and_congr_right fun _ => and_congr_right fun hlength => ?_
  rw [hlength]

end SymmetryOrder

/-! ### What is reported -/

variable {p : Pattern} {t : GraphView} {o : SymmetryOrder}

/-- What an order rejects at a step has no completion that it admits. -/
theorem filter_completions_eq_nil {placed rest : List Nat} {m : Placement} (hm : m.Fits p t placed)
    (hnodup : (placed ++ rest).Nodup) (hadmits : o.admits m.image = false) :
    (completions p none t (p.steps placed rest) m).filter (fun m' => o.admits m'.image) = [] := by
  refine List.filter_eq_nil_iff.mpr fun m' hm' hadm => ?_
  obtain ⟨hfits, hsuffix⟩ := (mem_completions_iff hm hnodup).mp hm'
  -- What is placed later does not change the images that are there.
  have hkeys : (m'.map Prod.fst).Nodup := by
    rw [hfits.keys]
    exact List.nodup_reverse.mpr hnodup
  have hmono := SymmetryOrder.admits_mono
    (fun u a hu => Placement.image_of_suffix hkeys hsuffix hu) hadm
  exact absurd (hmono.symm.trans hadmits) (by decide)

/-- **The completions along a plan** under an order are those that it admits. -/
theorem completions_some_eq_filter {placed rest : List Nat} {m : Placement}
    (hm : m.Fits p t placed) (hnodup : (placed ++ rest).Nodup) (hadmits : o.admits m.image = true) :
    completions p (some o) t (p.steps placed rest) m =
      (completions p none t (p.steps placed rest) m).filter fun m' => o.admits m'.image := by
  induction rest generalizing placed m with
  | nil =>
    rw [Pattern.steps, completions, completions]
    exact (List.filter_eq_self.mpr fun m' hm' => by rwa [List.mem_singleton.mp hm']).symm
  | cons v rest ih =>
    have hv : v ∉ placed := fun hv => by
      simpa using (List.disjoint_of_nodup_append hnodup) hv (List.mem_cons_self ..)
    have hassoc : placed ++ [v] ++ rest = placed ++ v :: rest := by simp
    have hchoices : (p.step placed v).choices p (some o) t m =
        ((p.step placed v).choices p none t m).filter fun c =>
          o.admits (Placement.image ((v, c) :: m)) := by
      rw [PlannedNode.choices, PlannedNode.choices, List.filter_filter]
      refine List.filter_congr fun c _ => ?_
      simp only [PlannedNode.admitted, Option.all_some, Option.all_none, Bool.and_true]
      rw [← Bool.and_assoc, Bool.and_comm]
      rfl
    have hnone : ∀ c ∈ (p.step placed v).choices p none t m,
        o.admits (Placement.image ((v, c) :: m)) = false →
        (completions p none t (p.steps (placed ++ [v]) rest) ((v, c) :: m)).filter
          (fun m' => o.admits m'.image) = [] := fun c hc hadm =>
      filter_completions_eq_nil ((Placement.fits_cons_iff hm hv).mpr hc) (hassoc ▸ hnodup) hadm
    rw [Pattern.steps, completions, completions, hchoices, List.filter_flatMap]
    refine Eq.trans (List.flatMap_congr fun c hc => ?_) (flatMap_filter_of_eq_nil hnone)
    obtain ⟨hc, hadm⟩ := List.mem_filter.mp hc
    exact ih ((Placement.fits_cons_iff hm hv).mpr hc) (hassoc ▸ hnodup) hadm

namespace Pattern

/-- **The occurrences under an order** are the occurrences that it admits, in the same order. -/
theorem occurrences_some_eq_filter (hp : p.inRange = true) (hsize : o.size = p.graph.nodeCount) :
    p.occurrences (some o) t = (p.occurrences none t).filter o.isLeast := by
  rw [occurrences, occurrences, plan?_eq hp]
  split
  · rfl
  · have hplaced := p.placingOrder_perm
    have hnodup : ([] ++ p.placingOrder).Nodup := hplaced.nodup_iff.mpr List.nodup_range
    have hfilter : (some o).filter (fun o => o.size == p.graph.nodeCount) = some o := by
      rw [Option.filter_some, if_pos (beq_iff_eq.mpr hsize)]
    have hfits : ∀ m ∈ completions p none t (p.steps [] p.placingOrder) [],
        o.admits m.image = o.isLeast (m.occurrence p.graph.nodeCount).images := by
      intro m hm
      have hfits := ((mem_completions_iff (Placement.Fits.nil p t) hnodup).mp hm).1
      have himage : ∀ v, v < p.graph.nodeCount → ∃ a, m.image v = some a := fun v hv =>
        hfits.exists_image_iff.mpr (hplaced.mem_iff.mpr (List.mem_range.mpr hv))
      rw [SymmetryOrder.isLeast]
      refine congrArg o.admits (funext fun v => ?_)
      rw [Placement.getElem?_images_occurrence himage]
      split
      · rfl
      · next hv =>
        refine Option.eq_none_iff_forall_ne_some.mpr fun a ha => hv ?_
        exact List.mem_range.mp (hplaced.mem_iff.mp (hfits.mem_placed ha))
    simp only [hfilter, Option.filter_none]
    rw [completions_some_eq_filter (Placement.Fits.nil p t) hnodup (SymmetryOrder.admits_none o),
      List.filter_map]
    exact congrArg _ (List.filter_congr hfits)

/-- The occurrences under an order are the matches that it admits. -/
theorem mem_occurrences_some_iff (hp : p.inRange = true) (hsize : o.size = p.graph.nodeCount)
    {images : List Nat} : images ∈ p.occurrences (some o) t ↔
      p.IsMatch t images ∧ o.isLeast images = true := by
  rw [occurrences_some_eq_filter hp hsize, List.mem_filter, mem_occurrences_iff hp]

theorem nodup_occurrences_some (hp : p.inRange = true) (hsize : o.size = p.graph.nodeCount) :
    (p.occurrences (some o) t).Nodup := by
  rw [occurrences_some_eq_filter hp hsize]
  exact (nodup_occurrences hp).filter _

/-- Whatever the order, only matches are reported. -/
theorem isMatch_of_mem_occurrences (hp : p.inRange = true) {order : Option SymmetryOrder}
    {images : List Nat} (h : images ∈ p.occurrences order t) : p.IsMatch t images := by
  cases order with
  | none => exact (mem_occurrences_iff hp).mp h
  | some o =>
    by_cases hsize : o.size = p.graph.nodeCount
    · exact ((mem_occurrences_some_iff hp hsize).mp h).1
    · have hfilter : (some o).filter (fun o => o.size == p.graph.nodeCount) = none := by
        rw [Option.filter_some, beq_false_of_ne hsize, if_neg Bool.false_ne_true]
      rw [occurrences, hfilter] at h
      exact (mem_occurrences_iff hp).mp h

/-- What a search stores are matches. -/
theorem isMatch_of_mem_searchOne (hp : p.inRange = true) {maxHits : Nat}
    {order : Option SymmetryOrder} {hit : Hit}
    (h : hit ∈ (searchOne maxHits storeHits p order t []).state) :
    p.IsMatch t hit.occurrence.images := by
  refine searchOne_induction
    (fun found : List Hit => ∀ hit ∈ found, p.IsMatch t hit.occurrence.images)
    (fun hit hhit found hfound => ?_) (fun hit hnil => absurd hnil List.not_mem_nil) hit h
  obtain ⟨images, himages, rfl⟩ := List.mem_map.mp hhit
  intro hit hmem
  rcases List.mem_append.mp hmem with hmem | hmem
  · exact hfound hit hmem
  · rw [List.mem_singleton.mp hmem]
    exact isMatch_of_mem_occurrences hp himages

/-- An order does not add matches. -/
theorem length_occurrences_le (hp : p.inRange = true) (hsize : o.size = p.graph.nodeCount) :
    (p.occurrences (some o) t).length ≤ (p.occurrences none t).length := by
  rw [occurrences_some_eq_filter hp hsize]
  exact List.length_filter_le _ _

/-! ### Smallest matches -/

/-- What an order compares for a permutation: the match with the permuted one. -/
theorem map_comparisons {m perm : List Nat} (hlength : perm.length = m.length) :
    ((perm.zipIdx.map Prod.swap).map fun pair => (m[pair.1]?).getD 0) = m ∧
      ((perm.zipIdx.map Prod.swap).map fun pair => (m[pair.2]?).getD 0) = permuted perm m := by
  constructor
  · rw [List.map_map]
    refine List.ext_getElem (by simp [hlength]) fun i hi hi' => ?_
    simp [hi']
  · rw [List.map_map, permuted]
    refine List.ext_getElem (by simp) fun i hi hi' => ?_
    simp

/-- A match that an order does not admit is above one that follows from it by a permutation. -/
theorem exists_permuted_lt {m : List Nat} (hm : m.length = o.size)
    (hlength : ∀ perm ∈ o.permutations, perm.length = o.size) (h : o.isLeast m = false) :
    ∃ perm ∈ o.permutations, permuted perm m < m := by
  rw [SymmetryOrder.isLeast, SymmetryOrder.admits, List.all_eq_false] at h
  obtain ⟨perm, hperm, hnot⟩ := h
  obtain ⟨hfirst, hsecond⟩ := map_comparisons ((hlength perm hperm).trans hm.symm)
  have hlt := SymmetryOrder.lt_of_notAbove_eq_false (Bool.not_eq_true _ ▸ hnot)
  rw [hfirst, hsecond] at hlt
  exact ⟨perm, hperm, hlt⟩

/-- A match that an order admits is not above what follows from it by a permutation. -/
theorem not_permuted_lt {m perm : List Nat} (h : o.isLeast m = true) (hperm : perm ∈ o.permutations)
    (hlength : perm.length = m.length) (hlt : ∀ v ∈ perm, v < m.length) : ¬permuted perm m < m := by
  obtain ⟨hfirst, hsecond⟩ := map_comparisons hlength
  have hnot := SymmetryOrder.not_lt_of_notAbove (fun pair hpair => ?_)
    (List.all_eq_true.mp h perm hperm)
  · rwa [hfirst, hsecond] at hnot
  · obtain ⟨⟨v, i⟩, hmem, rfl⟩ := List.mem_map.mp hpair
    have hget := List.mk_mem_zipIdx_iff_getElem?.mp hmem
    have hi : i < m.length := hlength ▸ (List.getElem?_eq_some_iff.mp hget).1
    have hv : v < m.length := hlt v (List.mem_of_getElem? hget)
    simp [hi, hv]

/-- **Every match leads to a smallest one** by permutations of the order. -/
theorem exists_isLeast (hp : p.inRange = true) (hsize : o.size = p.graph.nodeCount)
    (hsymmetry : ∀ perm ∈ o.permutations, p.IsSymmetry perm) {m : List Nat} (hm : p.IsMatch t m) :
    ∃ m', Relation.ReflTransGen
        (fun m m' => p.IsMatch t m ∧ ∃ perm ∈ o.permutations, m' = permuted perm m) m m' ∧
      p.IsMatch t m' ∧ o.isLeast m' = true := by
  -- Every step leads to a match with fewer matches below it.
  induction hbelow : ((p.occurrences none t).toFinset.filter (· < m)).card using
    Nat.strongRecOn generalizing m with
  | ind n ih =>
    cases hleast : o.isLeast m with
    | true => exact ⟨m, Relation.ReflTransGen.refl, hm, hleast⟩
    | false =>
      obtain ⟨perm, hperm, hlt⟩ := exists_permuted_lt (hm.length_eq.trans hsize.symm)
        (fun perm hperm => (hsymmetry perm hperm).length_eq.trans hsize.symm) hleast
      have hm' := hm.permuted (hsymmetry perm hperm) hp
      have hfewer : ((p.occurrences none t).toFinset.filter (· < permuted perm m)).card < n := by
        rw [← hbelow]
        refine Finset.card_lt_card ((Finset.ssubset_iff_of_subset fun m' hm' => ?_).mpr
          ⟨permuted perm m, ?_, ?_⟩)
        · obtain ⟨hmem, hbelow'⟩ := Finset.mem_filter.mp hm'
          exact Finset.mem_filter.mpr ⟨hmem, List.lt_trans hbelow' hlt⟩
        · exact Finset.mem_filter.mpr
            ⟨List.mem_toFinset.mpr ((mem_occurrences_iff hp).mpr hm'), hlt⟩
        · exact fun hself => List.lt_irrefl _ (Finset.mem_filter.mp hself).2
      obtain ⟨least, hpath, hmatch, hadmitted⟩ := ih _ hfewer hm' rfl
      exact ⟨least, Relation.ReflTransGen.head ⟨hm, perm, hperm, rfl⟩ hpath, hmatch, hadmitted⟩

/-! ### Searching with an order and filtering afterwards -/

/-- The hits under an order are the hits that it admits, in the same order. -/
theorem hits_some_eq_filter (hp : p.inRange = true) (hsize : o.size = p.graph.nodeCount)
    (id : Nat) : p.hits (some o) t id =
      (p.hits none t id).filter fun hit => o.isLeast hit.occurrence.images := by
  rw [hits, hits, occurrences_some_eq_filter hp hsize, List.filter_map]
  rfl

/-- The number of matches that an order admits is the number of occurrences under it. -/
theorem ncard_isMatch_isLeast (hp : p.inRange = true) (hsize : o.size = p.graph.nodeCount) :
    {m | p.IsMatch t m ∧ o.isLeast m = true}.ncard = (p.occurrences (some o) t).length := by
  have hset : {m | p.IsMatch t m ∧ o.isLeast m = true} =
      ((p.occurrences (some o) t).toFinset : Set (List Nat)) := by
    ext m
    simp [mem_occurrences_some_iff hp hsize]
  rw [hset, Set.ncard_coe_finset, List.toFinset_card_of_nodup (nodup_occurrences_some hp hsize)]

end Pattern

variable {σ : Type}

/-- The listener that is told only of the hits that an order admits. -/
def Listener.onLeast (o : SymmetryOrder) (report : Listener σ) : Listener σ := fun s hit =>
  if o.isLeast hit.occurrence.images then report s hit else (s, .proceed)

/-- A listener that is told only of some hits hears of these, until it halts. -/
theorem Listener.hear_onLeast (o : SymmetryOrder) (report : Listener σ) (hits : List Hit) (s : σ) :
    (report.onLeast o).hear hits s =
      report.hear (hits.filter fun hit => o.isLeast hit.occurrence.images) s :=
  untilHalted_filter (fun hit s => report s hit) (fun hit => o.isLeast hit.occurrence.images) hits s

/-- An order for a pattern of another size is left aside. -/
theorem searchPattern_of_size_ne (hsize : o.size ≠ p.graph.nodeCount) (report : Listener σ)
    (id : Nat) (s : Tally σ) :
    searchPattern report t id p (some o) s = searchPattern report t id p none s := by
  have hfilter : (some o).filter (fun o => o.size == p.graph.nodeCount) = none := by
    rw [Option.filter_some, beq_false_of_ne hsize, if_neg Bool.false_ne_true]
  rw [searchPattern, searchPattern, hfilter, Option.filter_none]

/-- **A search with an order is a search without one whose hits are filtered afterwards.** The lists
of the order may be any lists. If the order is for patterns of this size and no cap interrupts the
searches, the hits under the order are those hits of the search without it that the order admits, in
the same order, and they are counted. Any listener that is called under the order comes to the state
to which it comes in the search without it when it is told only of these hits. An order for patterns
of another size changes nothing, whatever the cap, the listener and its state. -/
theorem searchOne_some_eq_filter (hp : p.inRange = true) (o : SymmetryOrder) (t : GraphView) :
    (o.size = p.graph.nodeCount → ∀ maxHits cap : Nat,
      {m | p.IsMatch t m ∧ o.isLeast m = true}.ncard ≤ maxHits →
      {m | p.IsMatch t m}.ncard ≤ cap →
      (searchOne maxHits storeHits p (some o) t []).state =
        (searchOne cap storeHits p none t []).state.filter
          (fun hit => o.isLeast hit.occurrence.images) ∧
      (searchOne maxHits storeHits p (some o) t []).hits =
        ((searchOne cap storeHits p none t []).state.countP
          fun hit => o.isLeast hit.occurrence.images) ∧
      ∀ {σ : Type} (report : Listener σ) (s : σ),
        (searchOne maxHits report p (some o) t s).state =
          (searchOne cap (report.onLeast o) p none t s).state) ∧
    (o.size ≠ p.graph.nodeCount → ∀ {σ : Type} (maxHits : Nat) (report : Listener σ) (s : σ),
      searchOne maxHits report p (some o) t s = searchOne maxHits report p none t s) := by
  refine ⟨fun hsize maxHits cap hmax hcap => ?_, fun hsize σ maxHits report s =>
    congrArg Prod.fst (searchPattern_of_size_ne hsize report 0 _)⟩
  rw [Pattern.ncard_isMatch_isLeast hp hsize] at hmax
  rw [Pattern.ncard_isMatch hp] at hcap
  have hall : (searchOne cap storeHits p none t []).state = p.hits none t 0 := by
    rw [searchOne_state p none t hcap, Listener.hear_storeHits, List.nil_append]
  refine ⟨?_, ?_, fun report s => ?_⟩
  · rw [hall, searchOne_state p (some o) t hmax, Listener.hear_storeHits, List.nil_append,
      Pattern.hits_some_eq_filter hp hsize]
  · have hlength : (p.hits (some o) t 0).length ≤ maxHits := by rwa [Pattern.hits, List.length_map]
    rw [hall, List.countP_eq_length_filter, ← Pattern.hits_some_eq_filter hp hsize, searchOne,
      searchPattern_fst_eq,
      untilHalted_deliver_of_proceed fun hit _ found => (rfl : (storeHits found hit).2 = .proceed),
      List.take_of_length_le hlength, Nat.zero_add]
  · rw [searchOne_state p (some o) t hmax, searchOne_state p none t hcap, Listener.hear_onLeast,
      Pattern.hits_some_eq_filter hp hsize]

/-- An edge between two nodes of any label. -/
def Pattern.link : Pattern :=
  ⟨(⟨["*", "*"], [⟨0, 1, "-"⟩], by decide⟩ : Graph).view, [.noEdge 0 0], some "*"⟩

/-- An order whose list is no permutation, and one for patterns with three nodes. With the first, a
ray of two is found only from its centre; with the other, from both ends. -/
theorem searchOne_some_eq_filter_link : Pattern.link.inRange = true ∧
    (SymmetryOrder.ofPermutations 2 [[1, 1]]).size = Pattern.link.graph.nodeCount ∧
    {m | Pattern.link.IsMatch Graph.twoRays.view m ∧
      (SymmetryOrder.ofPermutations 2 [[1, 1]]).isLeast m = true}.ncard ≤ 2 ∧
    {m | Pattern.link.IsMatch Graph.twoRays.view m}.ncard ≤ 4 ∧
    (searchOne 2 storeHits Pattern.link (some (.ofPermutations 2 [[1, 1]])) Graph.twoRays.view
      []).state = (searchOne 4 storeHits Pattern.link none Graph.twoRays.view []).state.filter
        (fun hit => (SymmetryOrder.ofPermutations 2 [[1, 1]]).isLeast hit.occurrence.images) ∧
    (searchOne 2 storeHits Pattern.link (some (.ofPermutations 2 [[1, 1]])) Graph.twoRays.view
      []).state = [⟨0, ⟨[0, 1]⟩⟩, ⟨0, ⟨[0, 2]⟩⟩] ∧
    (SymmetryOrder.ofPermutations 3 [[1, 1, 1]]).size ≠ Pattern.link.graph.nodeCount ∧
    searchOne 4 storeHits Pattern.link (some (.ofPermutations 3 [[1, 1, 1]]))
        Graph.twoRays.view [] =
      searchOne 4 storeHits Pattern.link none Graph.twoRays.view [] := by
  have hp : Pattern.link.inRange = true := by decide +kernel
  have hleast : {m | Pattern.link.IsMatch Graph.twoRays.view m ∧
      (SymmetryOrder.ofPermutations 2 [[1, 1]]).isLeast m = true}.ncard ≤ 2 := by
    rw [Pattern.ncard_isMatch_isLeast hp rfl]
    decide +kernel
  have hcap : {m | Pattern.link.IsMatch Graph.twoRays.view m}.ncard ≤ 4 := by
    rw [Pattern.ncard_isMatch hp]
    decide +kernel
  have hsize : (SymmetryOrder.ofPermutations 3 [[1, 1, 1]]).size ≠
      Pattern.link.graph.nodeCount := by decide
  exact ⟨hp, rfl, hleast, hcap,
    ((searchOne_some_eq_filter hp _ Graph.twoRays.view).1 rfl 2 4 hleast hcap).1, by decide +kernel,
    hsize, (searchOne_some_eq_filter hp _ Graph.twoRays.view).2 hsize 4 storeHits []⟩

end GraphGrammar
