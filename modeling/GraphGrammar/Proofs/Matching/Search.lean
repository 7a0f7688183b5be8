import Mathlib.Data.Set.Card
import GraphGrammar.Proofs.Matching.PartialMatch
import GraphGrammar.Rule.Side

/-!
# The search finds every match once

A search for a pattern whose constraints refer to its nodes reports every match exactly once and
nothing else, as long as the cap on the number of hits is not reached. That covers the left sides
of rules, whose constraints refer to their nodes by construction.

## Main results

* `GraphGrammar.Pattern.mem_occurrences_iff` — the occurrences are the matches.
* `GraphGrammar.Pattern.nodup_occurrences` — none is listed twice.
* `GraphGrammar.searchOne_reports_matches` — what a listener that never halts is told.
-/

namespace GraphGrammar

variable {σ : Type} {p : Pattern} {t : GraphView}

/-! ### Nothing is found twice -/

theorem PlannedNode.nodup_candidates (step : PlannedNode) (t : GraphView) (m : Placement) :
    (step.candidates t m).Nodup := by
  rw [candidates]
  split
  · exact List.nodup_range
  · split
    · exact List.nodup_nil
    · exact (t.neighbours _).ascending.imp Nat.ne_of_lt

theorem suffix_of_mem_completions {order : Option SymmetryOrder} {plan : List PlannedNode}
    {m m' : Placement} (h : m' ∈ completions p order t plan m) :
    m <:+ m' ∧ m'.length = m.length + plan.length := by
  induction plan generalizing m with
  | nil =>
    rw [completions, List.mem_singleton] at h
    subst h
    exact ⟨List.suffix_refl _, rfl⟩
  | cons step rest ih =>
    obtain ⟨c, -, hmem⟩ := List.mem_flatMap.mp h
    obtain ⟨hs, hlen⟩ := ih hmem
    refine ⟨(List.suffix_cons _ _).trans hs, ?_⟩
    rw [hlen, List.length_cons, List.length_cons]
    omega

/-- Completions that begin with different candidates are different. -/
theorem nodup_completions (order : Option SymmetryOrder) (plan : List PlannedNode)
    (m : Placement) : (completions p order t plan m).Nodup := by
  induction plan generalizing m with
  | nil => exact List.nodup_singleton _
  | cons step rest ih =>
    have hchoices : (step.choices p order t m).Nodup := (step.nodup_candidates t m).filter _
    refine List.nodup_flatMap.mpr ⟨fun c _ => ih _, hchoices.imp fun {c d} hcd => ?_⟩
    refine List.disjoint_left.mpr fun m' hc hd => hcd ?_
    obtain ⟨⟨front, hfront⟩, hlen⟩ := suffix_of_mem_completions hc
    obtain ⟨⟨front', hfront'⟩, hlen'⟩ := suffix_of_mem_completions hd
    have heq := (List.append_inj' (hfront.trans hfront'.symm) rfl).2
    simpa using heq

/-! ### Placements of all nodes and lists of images -/

namespace Placement

variable {placed : List Nat} {m : Placement} {n : Nat}

theorem images_occurrence (h : ∀ v, v < n → ∃ a, m.image v = some a) :
    (m.occurrence n).images = (List.range n).map fun v => (m.image v).getD 0 := by
  rw [occurrence]
  refine List.filterMap_eq_map_iff_forall_eq_some.mpr fun v hv => ?_
  obtain ⟨a, ha⟩ := h v (List.mem_range.mp hv)
  rw [ha, Option.getD_some]

theorem getElem?_images_occurrence (h : ∀ v, v < n → ∃ a, m.image v = some a) (v : Nat) :
    (m.occurrence n).images[v]? = if v < n then m.image v else none := by
  rw [images_occurrence h, List.getElem?_map]
  split
  · next hv =>
    obtain ⟨a, ha⟩ := h v hv
    rw [List.getElem?_range hv, Option.map_some, ha, Option.getD_some]
  · next hv =>
    rw [List.getElem?_eq_none (by simpa using hv), Option.map_none]

theorem image_inj {u v a : Nat} (hnodup : (m.map Prod.snd).Nodup) (hu : m.image u = some a)
    (hv : m.image v = some a) : u = v := by
  have := List.inj_on_of_nodup_map hnodup (mem_of_image_eq_some hu) (mem_of_image_eq_some hv) rfl
  exact congrArg Prod.fst this

/-- A placement is given by its nodes and their images. -/
theorem map_image_eq (hnodup : (m.map Prod.fst).Nodup) :
    (m.map Prod.fst).map (fun v => (v, (m.image v).getD 0)) = m := by
  rw [List.map_map]
  refine (List.map_congr_left fun placement hmem => ?_).trans (List.map_id m)
  obtain ⟨v, a⟩ := placement
  simp [image_eq_some_of_mem hnodup hmem]

/-- The placement of the nodes of `placed` that a list of images describes. -/
def ofImages (placed images : List Nat) : Placement :=
  (placed.map fun v => (v, images.getD v 0)).reverse

theorem map_fst_ofImages (placed images : List Nat) :
    (ofImages placed images).map Prod.fst = placed.reverse := by
  simp [ofImages, List.map_reverse, Function.comp_def]

theorem image_ofImages {images : List Nat} {v : Nat} (hnodup : placed.Nodup) (hv : v ∈ placed) :
    (ofImages placed images).image v = some (images.getD v 0) := by
  refine image_eq_some_of_mem ?_ ?_
  · rw [map_fst_ofImages]
    exact List.nodup_reverse.mpr hnodup
  · exact List.mem_reverse.mpr (List.mem_map.mpr ⟨v, hv, rfl⟩)

end Placement

namespace Pattern

variable {placed : List Nat} {m : Placement}

/-- A partial match of all nodes is a match. -/
theorem isMatch_of_fits (hp : p.inRange = true)
    (hplaced : placed.Perm (List.range p.graph.nodeCount)) (h : m.Fits p t placed) :
    p.IsMatch t (m.occurrence p.graph.nodeCount).images := by
  have hmem : ∀ {v}, v ∈ placed ↔ v < p.graph.nodeCount := fun {v} => by
    rw [hplaced.mem_iff, List.mem_range]
  have himage : ∀ v, v < p.graph.nodeCount → ∃ a, m.image v = some a := fun v hv =>
    h.exists_image_iff.mpr (hmem.mpr hv)
  have hget : ∀ {v}, v < p.graph.nodeCount →
      (m.occurrence p.graph.nodeCount).images[v]? = m.image v := fun hv => by
    rw [Placement.getElem?_images_occurrence himage, if_pos hv]
  have hget_some : ∀ {v a}, (m.occurrence p.graph.nodeCount).images[v]? = some a →
      m.image v = some a := by
    intro v a hv
    rw [Placement.getElem?_images_occurrence himage] at hv
    split at hv
    · exact hv
    · cases hv
  refine ⟨?_, ?_, ?_, fun hv => h.labelFits (hget_some hv),
    fun hu hv => assignable_iff_labelsFit.mpr (h.labelsFit (hget_some hu) (hget_some hv)), ?_⟩
  · rw [Placement.images_occurrence himage, List.length_map, List.length_range]
  · rw [Placement.images_occurrence himage]
    refine List.Nodup.map_on (fun u hu v hv huv => ?_) List.nodup_range
    obtain ⟨a, ha⟩ := himage u (List.mem_range.mp hu)
    obtain ⟨b, hb⟩ := himage v (List.mem_range.mp hv)
    rw [ha, hb, Option.getD_some, Option.getD_some] at huv
    exact Placement.image_inj h.nodup ha (huv ▸ hb)
  · intro a ha
    obtain ⟨v, hv⟩ := List.mem_iff_getElem?.mp ha
    exact h.lt_nodeCount a (h.image_mem (hget_some hv))
  · intro c hc
    rw [Constraint.holds_congr m.image fun v hv => hget (lt_of_mem_nodes hp hc hv)]
    exact h.holds c hc fun v hv => hmem.mpr (lt_of_mem_nodes hp hc hv)

/-- A match is a partial match of all nodes, in whatever order they are placed. -/
theorem IsMatch.fits {images : List Nat} (h : p.IsMatch t images)
    (hplaced : placed.Perm (List.range p.graph.nodeCount)) :
    (Placement.ofImages placed images).Fits p t placed := by
  have hmem : ∀ {v}, v ∈ placed ↔ v < p.graph.nodeCount := fun {v} => by
    rw [hplaced.mem_iff, List.mem_range]
  have hnodup : placed.Nodup := hplaced.nodup_iff.mpr List.nodup_range
  have himage : ∀ {v a}, (Placement.ofImages placed images).image v = some a →
      v < p.graph.nodeCount ∧ images.getD v 0 = a ∧ images[v]? = some a := by
    intro v a hv
    have hvmem : v ∈ placed := by
      rw [← List.mem_reverse, ← Placement.map_fst_ofImages placed images,
        ← Placement.exists_image_iff]
      exact ⟨a, hv⟩
    rw [Placement.image_ofImages hnodup hvmem, Option.some.injEq] at hv
    exact ⟨hmem.mp hvmem, hv, hv ▸ (h.exists_image (hmem.mp hvmem)).1⟩
  have hsnd : (Placement.ofImages placed images).map Prod.snd =
      (placed.map fun v => images.getD v 0).reverse := by
    simp [Placement.ofImages, List.map_reverse, Function.comp_def]
  refine ⟨Placement.map_fst_ofImages _ _, ?_, ?_, fun hv => h.labelFits (himage hv).2.2,
    fun hv => ?_, fun hu hv => assignable_iff_labelsFit.mp
      (h.assignable (himage hu).2.2 (himage hv).2.2), fun c hc hnodes => ?_⟩
  · rw [hsnd, List.nodup_reverse]
    exact List.Nodup.map_on (fun u hu v hv huv => h.image_inj (hmem.mp hu) (hmem.mp hv) huv) hnodup
  · intro a ha
    rw [hsnd, List.mem_reverse] at ha
    obtain ⟨v, hv, rfl⟩ := List.mem_map.mp ha
    exact (h.exists_image (hmem.mp hv)).2
  · obtain ⟨hlt, rfl, -⟩ := himage hv
    exact h.plainDegree_le hlt
  · rw [Constraint.holds_congr fun v => images[v]?]
    · exact h.holds c hc
    · intro v hv
      rw [Placement.image_ofImages hnodup (hnodes v hv),
        (h.exists_image (hmem.mp (hnodes v hv))).1]

/-- The placement that a match describes has the match as its images. -/
theorem IsMatch.images_occurrence_ofImages {images : List Nat} (h : p.IsMatch t images)
    (hplaced : placed.Perm (List.range p.graph.nodeCount)) :
    ((Placement.ofImages placed images).occurrence p.graph.nodeCount).images = images := by
  have hnodup : placed.Nodup := hplaced.nodup_iff.mpr List.nodup_range
  have himage : ∀ v, v < p.graph.nodeCount →
      (Placement.ofImages placed images).image v = some (images.getD v 0) := fun v hv =>
    Placement.image_ofImages hnodup (hplaced.mem_iff.mpr (List.mem_range.mpr hv))
  refine List.ext_getElem? fun v => ?_
  rw [Placement.getElem?_images_occurrence fun v hv => ⟨_, himage v hv⟩]
  split
  · next hv => rw [himage v hv, (h.exists_image hv).1]
  · next hv => rw [List.getElem?_eq_none (by rw [h.length_eq]; omega)]

/-- A partial match is determined by its images. -/
theorem eq_ofImages_of_fits (hplaced : placed.Perm (List.range p.graph.nodeCount))
    (h : m.Fits p t placed) :
    m = Placement.ofImages placed (m.occurrence p.graph.nodeCount).images := by
  have hnodup : (m.map Prod.fst).Nodup := by
    rw [h.keys, List.nodup_reverse]
    exact hplaced.nodup_iff.mpr List.nodup_range
  have himage : ∀ v, v < p.graph.nodeCount → ∃ a, m.image v = some a := fun v hv =>
    h.exists_image_iff.mpr (hplaced.mem_iff.mpr (List.mem_range.mpr hv))
  have hm := Placement.map_image_eq hnodup
  rw [h.keys, List.map_reverse] at hm
  refine hm.symm.trans (congrArg List.reverse ?_)
  refine List.map_congr_left fun v hv => ?_
  have hlt : v < p.graph.nodeCount := List.mem_range.mp (hplaced.mem_iff.mp hv)
  rw [List.getD_eq_getElem?_getD, Placement.getElem?_images_occurrence himage, if_pos hlt]

/-! ### All matches, once each -/

theorem plan?_eq (hp : p.inRange = true) : p.plan? = some (p.steps [] p.placingOrder) := by
  rw [plan?, if_pos hp]
  split
  · next hzero =>
    have hnil : p.placingOrder = [] := by
      have := p.placingOrder_perm.length_eq
      rwa [List.length_range, hzero, List.length_eq_zero_iff] at this
    rw [hnil, steps]
  · rfl

/-- **The occurrences of a pattern are its matches.** -/
theorem mem_occurrences_iff (hp : p.inRange = true) {images : List Nat} :
    images ∈ p.occurrences none t ↔ p.IsMatch t images := by
  have hplaced := p.placingOrder_perm
  have hnodup : ([] ++ p.placingOrder).Nodup := hplaced.nodup_iff.mpr List.nodup_range
  have hcompletions : ∀ m, m ∈ completions p none t (p.steps [] p.placingOrder) [] ↔
      m.Fits p t p.placingOrder := fun m => by
    rw [mem_completions_iff (Placement.Fits.nil p t) hnodup, List.nil_append]
    exact and_iff_left (List.nil_suffix)
  rw [occurrences, plan?_eq hp]
  split
  · next hsmall =>
    refine iff_of_false List.not_mem_nil fun h => ?_
    have hnodes := h.nodeCount_le
    have hedges := h.edgeCount_le
    simp only [Bool.or_eq_true, decide_eq_true_eq] at hsmall
    omega
  · simp only [Option.filter_none, List.mem_map, hcompletions]
    constructor
    · rintro ⟨m, hm, rfl⟩
      exact isMatch_of_fits hp hplaced hm
    · exact fun h => ⟨_, h.fits hplaced, h.images_occurrence_ofImages hplaced⟩

theorem nodup_occurrences (hp : p.inRange = true) : (p.occurrences none t).Nodup := by
  have hplaced := p.placingOrder_perm
  rw [occurrences, plan?_eq hp]
  split
  · exact List.nodup_nil
  · refine List.Nodup.map_on (fun m hm m' hm' heq => ?_) (nodup_completions _ _ _)
    have hnodup : ([] ++ p.placingOrder).Nodup := hplaced.nodup_iff.mpr List.nodup_range
    have hfits := (mem_completions_iff (Placement.Fits.nil p t) hnodup).mp hm
    have hfits' := (mem_completions_iff (Placement.Fits.nil p t) hnodup).mp hm'
    rw [eq_ofImages_of_fits hplaced hfits.1, heq, ← eq_ofImages_of_fits hplaced hfits'.1]

/-- The number of matches is the number of occurrences. -/
theorem ncard_isMatch (hp : p.inRange = true) :
    {m | p.IsMatch t m}.ncard = (p.occurrences none t).length := by
  have hset : {m | p.IsMatch t m} = ((p.occurrences none t).toFinset : Set (List Nat)) := by
    ext m
    simp [mem_occurrences_iff hp]
  rw [hset, Set.ncard_coe_finset, List.toFinset_card_of_nodup (nodup_occurrences hp)]

end Pattern

/-! ### Left sides of rules -/

theorem Constraint.exists_of_mem_nodes_remap {f : Nat → Option Nat} {c c' : Constraint} {v : Nat}
    (h : c.remap f = some c') (hv : v ∈ c'.nodes) : ∃ u ∈ c.nodes, f u = some v := by
  cases c <;> simp only [remap, Option.bind_eq_bind, Option.bind_eq_some_iff,
    Option.some.injEq] at h
  case nodeLabel | nodeAdjacency =>
    obtain ⟨u, hu, rfl⟩ := h
    simp only [nodes, List.mem_singleton] at hv
    exact ⟨_, List.mem_singleton_self _, hv ▸ hu⟩
  case edgeLabel | noEdge =>
    obtain ⟨a, ha, b, hb, rfl⟩ := h
    simp only [nodes, List.mem_cons, List.not_mem_nil, or_false] at hv ⊢
    rcases hv with rfl | rfl
    · exact ⟨_, Or.inl rfl, ha⟩
    · exact ⟨_, Or.inr rfl, hb⟩

/-- The constraints of the left side of a rule refer to its nodes, because constraints with other
nodes are left out. -/
theorem Rule.inRange_leftPattern (r : Rule) : r.leftPattern.inRange = true := by
  refine List.all_eq_true.mpr fun c hc => List.all_eq_true.mpr fun v hv => ?_
  obtain ⟨c', -, hremap⟩ := List.mem_filterMap.mp hc
  obtain ⟨u, -, hu⟩ := Constraint.exists_of_mem_nodes_remap hremap hv
  exact decide_eq_true (Rule.localNumber?_lt hu)

/-- **The search finds every match once.** -/
theorem searchOne_reports_matches (hp : p.inRange = true ∨ ∃ r : Rule, p = r.leftPattern)
    {maxHits : Nat} (hcap : {m | p.IsMatch t m}.ncard ≤ maxHits) {report : Listener σ}
    (hproceed : ∀ s hit, (report s hit).2 = .proceed) (s : σ) :
    ∃ found : List (List Nat), found.Nodup ∧ (∀ m, m ∈ found ↔ p.IsMatch t m) ∧
      (searchOne maxHits report p none t s).state =
        found.foldl (fun s m => (report s ⟨0, ⟨m⟩⟩).1) s ∧
      (searchOne maxHits report p none t s).hits = {m | p.IsMatch t m}.ncard := by
  have hp : p.inRange = true := by
    rcases hp with hp | ⟨r, rfl⟩
    · exact hp
    · exact r.inRange_leftPattern
  have hlen := Pattern.ncard_isMatch (t := t) hp
  refine ⟨p.occurrences none t, Pattern.nodup_occurrences hp,
    fun m => Pattern.mem_occurrences_iff hp, ?_⟩
  rw [searchOne, searchPattern_fst_eq, untilHalted_deliver_of_proceed fun hit _ s => hproceed s hit,
    Pattern.hits,
    List.take_of_length_le (by simpa [← hlen] using hcap), List.foldl_map, List.length_map, hlen]
  simp

/-- A centre with two rays. -/
def Graph.twoRays : Graph := ⟨["a", "b", "b"], [⟨0, 1, "-"⟩, ⟨0, 2, "-"⟩], by decide⟩

/-- A ray as a pattern: an edge from a centre to a node of any label. -/
def Pattern.ray : Pattern :=
  ⟨(⟨["a", "*"], [⟨1, 0, "-"⟩], by decide⟩ : Graph).view, [.noEdge 1 1], some "*"⟩

/-- A ray is found twice, which a cap of two allows. -/
theorem searchOne_reports_matches_twoRays :
    Pattern.ray.inRange = true ∧ {m | Pattern.ray.IsMatch Graph.twoRays.view m}.ncard ≤ 2 ∧
      ∃ found : List (List Nat), found.Nodup ∧
        (∀ m, m ∈ found ↔ Pattern.ray.IsMatch Graph.twoRays.view m) ∧
        (searchOne 2 storeHits Pattern.ray none Graph.twoRays.view []).state =
          found.foldl (fun s m => (storeHits s ⟨0, ⟨m⟩⟩).1) [] ∧
        (searchOne 2 storeHits Pattern.ray none Graph.twoRays.view []).hits =
          {m | Pattern.ray.IsMatch Graph.twoRays.view m}.ncard := by
  have hp : Pattern.ray.inRange = true := by decide +kernel
  have hcap : {m | Pattern.ray.IsMatch Graph.twoRays.view m}.ncard ≤ 2 := by
    rw [Pattern.ncard_isMatch hp]
    decide +kernel
  exact ⟨hp, hcap, searchOne_reports_matches (Or.inl hp) hcap (fun _ _ => rfl) []⟩

end GraphGrammar
