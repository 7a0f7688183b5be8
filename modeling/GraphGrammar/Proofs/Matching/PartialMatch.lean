import GraphGrammar.Proofs.Matching.Enumeration
import GraphGrammar.Proofs.Matching.Match

/-!
# Partial matches

While a search goes on, a placement of some nodes satisfies everything that a match asks of these
nodes, and in addition the bound on degrees, by which the search looks ahead to the nodes that are
still missing. The admitted candidates for the next node are exactly those that keep it so. Hence
the completions along a plan are exactly the partial matches that continue the placement.

## Main definitions

* `GraphGrammar.Placement.Fits` — a placement of given nodes is a partial match.

## Main results

* `GraphGrammar.Placement.fits_cons_iff` — one step of the search.
* `GraphGrammar.mem_completions_iff` — all further steps.
* `GraphGrammar.Pattern.placingOrder_perm` — the plan places every node once.
-/

namespace GraphGrammar

variable {p : Pattern} {t : GraphView}

/-! ### The order of placing -/

theorem GraphView.arrange_perm (g : GraphView) (weight : Nat → Nat) (placed remaining : List Nat) :
    (g.arrange weight placed remaining).Perm remaining := by
  fun_induction arrange g weight placed remaining with
  | case1 => exact List.Perm.refl _
  | case2 placed v rest ih =>
    exact (ih.cons _).trans (List.perm_cons_erase (g.nextNode_mem weight placed v rest)).symm

theorem Pattern.placingOrder_perm (p : Pattern) :
    p.placingOrder.Perm (List.range p.graph.nodeCount) :=
  p.graph.arrange_perm p.weight [] _

/-! ### Lookups in placements -/

namespace Placement

variable {placed : List Nat} {m : Placement} {u v a b c : Nat}

theorem image_cons (v c : Nat) (m : Placement) (u : Nat) :
    image ((v, c) :: m) u = if u = v then some c else image m u := by
  rw [image, List.lookup_cons]
  by_cases h : u = v
  · simp [h]
  · rw [beq_false_of_ne h, if_neg h]
    rfl

theorem mem_of_image_eq_some (h : m.image v = some a) : (v, a) ∈ m := by
  induction m with
  | nil => simp [image] at h
  | cons placement m ih =>
    obtain ⟨w, c⟩ := placement
    rw [image_cons] at h
    split at h
    · next hv => simp [hv, ← Option.some.inj h]
    · exact List.mem_cons_of_mem _ (ih h)

theorem image_eq_some_of_mem (hnodup : (m.map Prod.fst).Nodup) (h : (v, a) ∈ m) :
    m.image v = some a := by
  induction m with
  | nil => simp at h
  | cons placement m ih =>
    obtain ⟨w, c⟩ := placement
    obtain ⟨hnotin, hnodup⟩ := List.nodup_cons.mp hnodup
    rw [image_cons]
    rcases List.mem_cons.mp h with heq | h
    · cases heq
      rw [if_pos rfl]
    · have hmem : v ∈ m.map Prod.fst := List.mem_map_of_mem h
      have hvw : v ≠ w := by
        rintro rfl
        exact hnotin hmem
      rw [if_neg hvw, ih hnodup h]

theorem exists_image_iff : (∃ a, m.image v = some a) ↔ v ∈ m.map Prod.fst := by
  induction m with
  | nil => simp [image]
  | cons placement m ih =>
    obtain ⟨w, c⟩ := placement
    rw [List.map_cons, List.mem_cons, ← ih, image_cons]
    by_cases h : v = w <;> simp [h]

theorem uses_iff : m.uses c = true ↔ c ∈ m.map Prod.snd := by
  simp [uses]

/-! ### Partial matches -/

/-- The placement `m` of the nodes of `placed` is a match as far as these nodes are concerned. -/
structure Fits (p : Pattern) (t : GraphView) (placed : List Nat) (m : Placement) : Prop where
  /-- Exactly the nodes of `placed` have an image. -/
  keys : m.map Prod.fst = placed.reverse
  /-- Distinct nodes have distinct images. -/
  nodup : (m.map Prod.snd).Nodup
  /-- Images are nodes of the target. -/
  lt_nodeCount : ∀ a ∈ m.map Prod.snd, a < t.nodeCount
  /-- The label of a node admits the label of its image. -/
  labelFits : ∀ {v a : Nat}, m.image v = some a →
    labelFits p.wildcard (p.graph.label v) (t.label a) = true
  /-- An image has at least as many edges to other nodes as the node. -/
  plainDegree_le : ∀ {v a : Nat}, m.image v = some a →
    p.graph.degree v - p.graph.selfLoops v ≤ t.degree a - t.selfLoops a
  /-- The labels between two nodes admit labels between their images. -/
  labelsFit : ∀ {u v a b : Nat}, m.image u = some a → m.image v = some b →
    labelsFit p.wildcard (p.graph.labelsBetween u v) (t.labelsBetween a b) = true
  /-- The constraints on placed nodes hold. -/
  holds : ∀ c ∈ p.constraints, (∀ v ∈ c.nodes, v ∈ placed) → c.holds t m.image = true

namespace Fits

theorem nil (p : Pattern) (t : GraphView) : Fits p t [] [] where
  keys := rfl
  nodup := List.nodup_nil
  lt_nodeCount := by simp
  labelFits h := by simp [image] at h
  plainDegree_le h := by simp [image] at h
  labelsFit h := by simp [image] at h
  holds c _ hc := by
    cases c <;> exact absurd (hc _ (List.mem_cons_self ..)) List.not_mem_nil

theorem exists_image_iff (h : Fits p t placed m) : (∃ a, m.image v = some a) ↔ v ∈ placed := by
  rw [Placement.exists_image_iff, h.keys, List.mem_reverse]

theorem mem_placed (h : Fits p t placed m) (hv : m.image v = some a) : v ∈ placed :=
  h.exists_image_iff.mp ⟨a, hv⟩

theorem image_mem (_ : Fits p t placed m) (hv : m.image v = some a) : a ∈ m.map Prod.snd :=
  List.mem_map.mpr ⟨(v, a), mem_of_image_eq_some hv, rfl⟩

end Fits

end Placement

/-! ### Labels, regardless of the order -/

theorem labelsFit_congr {wildcard : Option String}
    {required required' available available' : List String}
    (hr : required.Perm required') (ha : available.Perm available') :
    labelsFit wildcard required available = labelsFit wildcard required' available' := by
  rw [Bool.eq_iff_iff, labelsFit_iff, labelsFit_iff, hr.length_eq, ha.length_eq]
  simp only [hr.mem_iff, hr.count_eq, ha.count_eq]

theorem labelsFit_labelsBetween_comm (wildcard : Option String) (g t : GraphView) (u v a b : Nat) :
    labelsFit wildcard (g.labelsBetween u v) (t.labelsBetween a b) =
      labelsFit wildcard (g.labelsBetween v u) (t.labelsBetween b a) :=
  labelsFit_congr (g.labelsBetween_perm_swap u v) (t.labelsBetween_perm_swap a b)

theorem labelsFit_nil (wildcard : Option String) (available : List String) :
    labelsFit wildcard [] available = true := by
  simp [labelsFit]

theorem length_le_of_labelsFit {wildcard : Option String} {required available : List String}
    (h : labelsFit wildcard required available = true) : required.length ≤ available.length :=
  (labelsFit_iff.mp h).1

/-! ### One step of the search -/

namespace PlannedNode

variable {placed : List Nat} {m : Placement} {v c : Nat}

/-- The first clause of `suits`, and what `suits` compares, for the step of a plan. -/
theorem suits_step_iff (hm : m.Fits p t placed) :
    (p.step placed v).suits p t m c = true ↔ c ∉ m.map Prod.snd ∧
      labelFits p.wildcard (p.graph.label v) (t.label c) = true ∧
      p.graph.degree v - p.graph.selfLoops v ≤ t.degree c - t.selfLoops c ∧
      labelsFit p.wildcard (p.graph.labelsBetween v v) (t.labelsBetween c c) = true ∧
      ∀ u a, m.image u = some a →
        labelsFit p.wildcard (p.graph.labelsBetween v u) (t.labelsBetween c a) = true := by
  have hloops : (p.graph.labelsBetween v v).length ≤ t.selfLoops c ∧
      labelsFit p.wildcard (p.graph.labelsBetween v v) (t.labelsBetween c c) = true ↔
      labelsFit p.wildcard (p.graph.labelsBetween v v) (t.labelsBetween c c) = true :=
    and_iff_right_of_imp fun h => t.length_labelsBetween_self c ▸ length_le_of_labelsFit h
  rw [suits, Bool.and_eq_true]
  refine (and_congr_right fun _ => (?links : _ ↔ ∀ u a, m.image u = some a →
    labelsFit p.wildcard (p.graph.labelsBetween v u) (t.labelsBetween c a) = true)).trans ?_
  case links =>
    simp only [Pattern.step, List.all_map, List.all_eq_true, List.mem_filter, Function.comp_apply]
    constructor
    · intro h u a hu
      by_cases hedge : p.graph.hasEdge v u = true
      · have := h u ⟨hm.mem_placed hu, hedge⟩
        rwa [hu] at this
      · rw [Bool.not_eq_true, ← GraphView.labelsBetween_eq_nil_iff] at hedge
        rw [hedge, labelsFit_nil]
    · rintro h u ⟨hu, -⟩
      obtain ⟨a, ha⟩ := hm.exists_image_iff.mpr hu
      rw [ha]
      exact h u a ha
  simp only [Bool.and_eq_true, Bool.not_eq_true', ← Bool.not_eq_true, Placement.uses_iff,
    decide_eq_true_eq]
  simp only [Pattern.step, GraphView.length_labelsBetween_self] at hloops ⊢
  constructor
  · rintro ⟨⟨⟨⟨⟨hused, hlabel⟩, -⟩, hplain⟩, hloops⟩, hlinks⟩
    exact ⟨hused, hlabel, hplain, hloops, hlinks⟩
  · rintro ⟨hused, hlabel, hplain, hfit, hlinks⟩
    exact ⟨⟨⟨⟨⟨hused, hlabel⟩, (hloops.mpr hfit).1⟩, hplain⟩, hfit⟩, hlinks⟩

/-- The checks of a step are the constraints that were not judged before. -/
theorem admitted_none_step_iff :
    (p.step placed v).admitted none t m = true ↔ ∀ c ∈ p.constraints, v ∈ c.nodes →
      (∀ u ∈ c.nodes, u = v ∨ u ∈ placed) → c.holds t m.image = true := by
  simp only [admitted, Pattern.step, Option.all_none, Bool.and_true, List.all_eq_true,
    List.mem_filter, Bool.and_eq_true, List.contains_iff_mem, Bool.or_eq_true, beq_iff_eq]
  constructor
  · intro h c hc hv hnodes
    exact h c ⟨hc, hv, hnodes⟩
  · rintro h c ⟨hc, hv, hnodes⟩
    exact h c hc hv hnodes

/-- A node of the target that fits the edges to placed nodes is among the candidates. -/
theorem mem_candidates_step_iff (hm : m.Fits p t placed)
    (hlinks : ∀ u a, m.image u = some a →
      labelsFit p.wildcard (p.graph.labelsBetween v u) (t.labelsBetween c a) = true) :
    c ∈ (p.step placed v).candidates t m ↔ c < t.nodeCount := by
  rw [candidates]
  simp only [Pattern.step]
  cases hparent : (placed.filter fun u => p.graph.hasEdge v u).head? with
  | none => exact List.mem_range
  | some u =>
    obtain ⟨hu, hedge⟩ := List.mem_filter.mp (List.mem_of_head? hparent)
    obtain ⟨a, ha⟩ := hm.exists_image_iff.mpr hu
    have hac : t.hasEdge a c = true := by
      rw [t.hasEdge_comm]
      exact GraphView.hasEdge_of_length_le (length_le_of_labelsFit (hlinks u a ha)) hedge
    simp only [ha, GraphView.mem_neighbours, hac, true_iff]
    obtain ⟨e, he, hnode⟩ := List.any_eq_true.mp hac
    exact eq_of_beq hnode ▸ (t.mem_lt he).2

end PlannedNode

namespace Placement

variable {placed : List Nat} {m : Placement} {v c : Nat}

/-- The images after one more node was placed. -/
theorem image_cons_eq_some_iff (hm : m.Fits p t placed) (hv : v ∉ placed) {u a : Nat} :
    image ((v, c) :: m) u = some a ↔ (u = v ∧ a = c) ∨ m.image u = some a := by
  rw [image_cons]
  split
  · next huv =>
    subst huv
    rw [Option.some.injEq, eq_comm, or_iff_left fun hu => hv (hm.mem_placed hu)]
    exact (and_iff_right rfl).symm
  · next huv => exact (or_iff_right fun h => huv h.1).symm

/-- A constraint on nodes that were placed is judged after one more node or was judged before. -/
theorem holds_cons (hm : m.Fits p t placed) (hchecks : ∀ d ∈ p.constraints, v ∈ d.nodes →
      (∀ u ∈ d.nodes, u = v ∨ u ∈ placed) → d.holds t (image ((v, c) :: m)) = true)
    {d : Constraint} (hd : d ∈ p.constraints) (hnodes : ∀ u ∈ d.nodes, u ∈ placed ++ [v]) :
    d.holds t (image ((v, c) :: m)) = true := by
  have hcases : ∀ u ∈ d.nodes, u = v ∨ u ∈ placed := fun u hu =>
    (List.mem_append.mp (hnodes u hu)).symm.imp_left List.mem_singleton.mp
  by_cases hdv : v ∈ d.nodes
  · exact hchecks d hd hdv hcases
  · have hne : ∀ u ∈ d.nodes, u ≠ v := fun u hu huv => hdv (huv ▸ hu)
    rw [Constraint.holds_congr m.image fun u hu => by rw [image_cons, if_neg (hne u hu)]]
    exact hm.holds d hd fun u hu => (hcases u hu).resolve_left (hne u hu)

/-- A candidate that suits and is admitted is placed. -/
theorem Fits.cons (hm : m.Fits p t placed) (hv : v ∉ placed)
    (hchoice : c ∈ (p.step placed v).choices p none t m) :
    Fits p t (placed ++ [v]) ((v, c) :: m) := by
  rw [PlannedNode.choices, List.mem_filter, Bool.and_eq_true, PlannedNode.suits_step_iff hm,
    PlannedNode.admitted_none_step_iff] at hchoice
  obtain ⟨hcandidate, ⟨hused, hlabel, hplain, hloops, hlinks⟩, hchecks⟩ := hchoice
  refine ⟨by simp [hm.keys], List.nodup_cons.mpr ⟨hused, hm.nodup⟩, fun a ha => ?_,
    fun hu => ?_, fun hu => ?_, fun {u w a b} hu hw => ?_, fun d hd => holds_cons hm hchecks hd⟩
  · rcases List.mem_cons.mp ha with rfl | ha
    · exact (PlannedNode.mem_candidates_step_iff hm hlinks).mp hcandidate
    · exact hm.lt_nodeCount a ha
  · rcases (image_cons_eq_some_iff hm hv).mp hu with ⟨rfl, rfl⟩ | hu
    · exact hlabel
    · exact hm.labelFits hu
  · rcases (image_cons_eq_some_iff hm hv).mp hu with ⟨rfl, rfl⟩ | hu
    · exact hplain
    · exact hm.plainDegree_le hu
  · rcases (image_cons_eq_some_iff hm hv).mp hu with ⟨rfl, rfl⟩ | hu' <;>
      rcases (image_cons_eq_some_iff hm hv).mp hw with ⟨rfl, rfl⟩ | hw'
    · exact hloops
    · exact hlinks w b hw'
    · rw [labelsFit_labelsBetween_comm]
      exact hlinks u a hu'
    · exact hm.labelsFit hu' hw'

/-- **One step of the search.** The admitted candidates for the next node are those with which the
placement stays a partial match. -/
theorem fits_cons_iff (hm : m.Fits p t placed) (hv : v ∉ placed) :
    Fits p t (placed ++ [v]) ((v, c) :: m) ↔ c ∈ (p.step placed v).choices p none t m := by
  refine ⟨fun h => ?_, hm.cons hv⟩
  have hself : image ((v, c) :: m) v = some c :=
    (image_cons_eq_some_iff hm hv).mpr (.inl ⟨rfl, rfl⟩)
  have hlinks : ∀ u a, m.image u = some a →
      GraphGrammar.labelsFit p.wildcard (p.graph.labelsBetween v u) (t.labelsBetween c a) = true :=
    fun u a hu => h.labelsFit hself ((image_cons_eq_some_iff hm hv).mpr (.inr hu))
  have hc : c < t.nodeCount := h.lt_nodeCount c (List.mem_cons_self ..)
  rw [PlannedNode.choices, List.mem_filter, Bool.and_eq_true, PlannedNode.suits_step_iff hm,
    PlannedNode.admitted_none_step_iff]
  refine ⟨(PlannedNode.mem_candidates_step_iff hm hlinks).mpr hc,
    ⟨(List.nodup_cons.mp h.nodup).1, h.labelFits hself, h.plainDegree_le hself,
      h.labelsFit hself hself, hlinks⟩, fun c hc _ hnodes => h.holds c hc fun u hu => ?_⟩
  rcases hnodes u hu with rfl | hu
  · exact List.mem_append_right _ (List.mem_singleton_self _)
  · exact List.mem_append_left _ hu

/-! ### All further steps -/

theorem image_of_suffix {m' : Placement} (hnodup : (m'.map Prod.fst).Nodup) (hs : m <:+ m')
    (h : m.image v = some c) : m'.image v = some c :=
  image_eq_some_of_mem hnodup (hs.subset (mem_of_image_eq_some h))

/-- The part of a partial match that was placed first is a partial match. -/
theorem Fits.of_suffix {rest : List Nat} {m' : Placement} (h : m'.Fits p t (placed ++ rest))
    (hnodup : (placed ++ rest).Nodup) (hs : m <:+ m') (hkeys : m.map Prod.fst = placed.reverse) :
    m.Fits p t placed := by
  have hnodup' : (m'.map Prod.fst).Nodup := by
    rw [h.keys]
    exact List.nodup_reverse.mpr hnodup
  have himage : ∀ {v a}, m.image v = some a → m'.image v = some a := image_of_suffix hnodup' hs
  refine ⟨hkeys, (hs.map Prod.snd).sublist.nodup h.nodup,
    fun a ha => h.lt_nodeCount a ((hs.map Prod.snd).subset ha), fun hv => h.labelFits (himage hv),
    fun hv => h.plainDegree_le (himage hv), fun hu hv => h.labelsFit (himage hu) (himage hv),
    fun c hc hnodes => ?_⟩
  rw [Constraint.holds_congr m'.image]
  · exact h.holds c hc fun v hv => List.mem_append_left _ (hnodes v hv)
  · intro v hv
    obtain ⟨a, ha⟩ : ∃ a, m.image v = some a := by
      rw [Placement.exists_image_iff, hkeys, List.mem_reverse]
      exact hnodes v hv
    rw [ha, himage ha]

end Placement

/-- **The completions along a plan** are the partial matches of all planned nodes that continue the
placement. -/
theorem mem_completions_iff {placed rest : List Nat} {m m' : Placement} (hm : m.Fits p t placed)
    (hnodup : (placed ++ rest).Nodup) :
    m' ∈ completions p none t (p.steps placed rest) m ↔
      m'.Fits p t (placed ++ rest) ∧ m <:+ m' := by
  induction rest generalizing placed m with
  | nil =>
    rw [Pattern.steps, completions, List.mem_singleton, List.append_nil]
    constructor
    · rintro rfl
      exact ⟨hm, List.suffix_refl _⟩
    · rintro ⟨h, hs⟩
      refine (hs.eq_of_length ?_).symm
      have hlen := congrArg List.length (hm.keys.trans h.keys.symm)
      rwa [List.length_map, List.length_map] at hlen
  | cons v rest ih =>
    have hv : v ∉ placed := fun hv => by
      simpa using (List.disjoint_of_nodup_append hnodup) hv (List.mem_cons_self ..)
    have hassoc : placed ++ [v] ++ rest = placed ++ v :: rest := by simp
    have hstep : ∀ c ∈ (p.step placed v).choices p none t m,
        (m' ∈ completions p none t (p.steps (placed ++ [v]) rest) ((v, c) :: m) ↔
          m'.Fits p t (placed ++ v :: rest) ∧ (v, c) :: m <:+ m') := by
      intro c hc
      rw [← hassoc]
      exact ih ((Placement.fits_cons_iff hm hv).mpr hc) (hassoc ▸ hnodup)
    rw [Pattern.steps, completions, List.mem_flatMap]
    constructor
    · rintro ⟨c, hc, hmem⟩
      obtain ⟨h, hs⟩ := (hstep c hc).mp hmem
      exact ⟨h, (List.suffix_cons _ _).trans hs⟩
    · rintro ⟨h, hs⟩
      obtain ⟨front, rfl⟩ := hs
      -- The entry next to `m` is the image of `v`.
      have hfront : front.map Prod.fst = rest.reverse ++ [v] := by
        have := h.keys
        rw [List.map_append, hm.keys, List.reverse_append, List.reverse_cons] at this
        exact List.append_cancel_right this
      obtain ⟨front, ⟨w, c⟩, rfl⟩ : ∃ front' entry, front = front' ++ [entry] := by
        refine ⟨front.dropLast, front.getLast ?_, (List.dropLast_append_getLast _).symm⟩
        rintro rfl
        simp at hfront
      obtain ⟨-, hw⟩ : front.map Prod.fst = rest.reverse ∧ w = v := by
        simpa using hfront
      subst hw
      have hs : (w, c) :: m <:+ front ++ [(w, c)] ++ m := ⟨front, by simp⟩
      have hc : c ∈ (p.step placed w).choices p none t m := by
        refine (Placement.fits_cons_iff hm hv).mp (Placement.Fits.of_suffix (hassoc.symm ▸ h)
          (hassoc.symm ▸ hnodup) hs ?_)
        simp [hm.keys]
      exact ⟨c, hc, (hstep c hc).mpr ⟨h, hs⟩⟩

end GraphGrammar
