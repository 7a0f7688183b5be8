import GraphGrammar.Graph.RenumberTable
import GraphGrammar.Proofs.Graph.Indexed
import GraphGrammar.Proofs.Graph.Renumber
import GraphGrammar.Proofs.Symmetry.Isomorphism

/-!
# Renumbering as an action

Labels of a renumbered graph are given by one equation for every node of the original graph: the
label at its new number is its own. From this equation follow both that labels may be put into their
places one after the other, and that one renumbering after another is the renumbering by the
composed permutation. Since renumbering is an isomorphism, the matches of a pattern are renumbered
with the graph.

## Main definitions

* `GraphGrammar.Permutation.andThen`, `GraphGrammar.Permutation.inverse`.
* `GraphGrammar.Hit.renumbered` — a hit with its images renumbered.

## Main results

* `GraphGrammar.Graph.permute_indexed` — renumbering by marks is renumbering.
* `GraphGrammar.Graph.renumber_bind_renumber`, `GraphGrammar.Graph.renumber_range` — one renumbering
  after another, and the one that changes nothing.
* `GraphGrammar.Pattern.isMatch_iff_of_isIso`, `GraphGrammar.Pattern.occurrences_perm_of_isIso` —
  matches in isomorphic graphs.
* `GraphGrammar.Graph.permute_action` — renumbering acts on graphs and on the matches in them.
-/

namespace GraphGrammar

/-! ### Permutations as lists -/

theorem isPermutation_iff_perm {n : Nat} {perm : List Nat} :
    isPermutation n perm = true ↔ perm.Perm (List.range n) := by
  rw [isPermutation_iff]
  constructor
  · rintro ⟨hlength, hlt, hnodup⟩
    exact perm_range_of_nodup hnodup hlt hlength.ge
  · intro h
    exact ⟨by simpa using h.length_eq, fun v hv => List.mem_range.mp (h.mem_iff.mp hv),
      h.nodup_iff.mpr List.nodup_range⟩

namespace Permutation

/-- One permutation after another. -/
def andThen (p q : List Nat) : List Nat := p.map fun v => q.getD v v

/-- The permutation that undoes another one: it lists where each number stands. -/
def inverse (p : List Nat) : List Nat := (List.range p.length).map p.idxOf

variable {n v : Nat} {p q : List Nat}

theorem length_eq (hp : p.Perm (List.range n)) : p.length = n :=
  hp.length_eq.trans List.length_range

theorem nodup (hp : p.Perm (List.range n)) : p.Nodup := hp.nodup_iff.mpr List.nodup_range

theorem getD_lt (hp : p.Perm (List.range n)) (hv : v < n) : p.getD v v < n :=
  getD_lt_of_isPermutation (isPermutation_iff_perm.mpr hp) hv

theorem getD_andThen (hv : v < p.length) :
    (andThen p q).getD v v = q.getD (p.getD v v) (p.getD v v) := by
  simp [andThen, hv]

theorem map_getD_range (p : List Nat) : (List.range p.length).map (fun v => p.getD v v) = p :=
  List.ext_getElem (by simp) fun v _ hv => by simp [hv]

theorem map_idxOf_self (h : p.Nodup) : p.map p.idxOf = List.range p.length :=
  List.ext_getElem (by simp) fun v _ _ => by simp [h.idxOf_getElem]

theorem andThen_perm (hp : p.Perm (List.range n)) (hq : q.Perm (List.range n)) :
    (andThen p q).Perm (List.range n) := by
  have hmap := hp.map fun v => q.getD v v
  rw [← length_eq hq, map_getD_range] at hmap
  exact hmap.trans hq

theorem inverse_perm (hp : p.Perm (List.range n)) : (inverse p).Perm (List.range n) := by
  have hmap := hp.map p.idxOf
  rw [map_idxOf_self (nodup hp), length_eq hp] at hmap
  rw [inverse, length_eq hp]
  exact hmap.symm

/-- A permutation is undone by its inverse. -/
theorem andThen_inverse (hp : p.Perm (List.range n)) : andThen p (inverse p) = List.range n := by
  have hinverse : ∀ v ∈ p, (inverse p).getD v v = p.idxOf v := fun v hv => by
    have hlt : v < p.length := (length_eq hp).symm ▸ List.mem_range.mp (hp.mem_iff.mp hv)
    simp [inverse, hlt]
  rw [andThen, List.map_congr_left hinverse, map_idxOf_self (nodup hp), length_eq hp]

end Permutation

/-! ### Marks and places -/

/-- The check by marks asks for numbers with a mark that is not set, and for no number twice. -/
theorem meetsOnce_iff {marks : List Bool} {perm : List Nat} : meetsOnce marks perm = true ↔
    (∀ v ∈ perm, marks[v]? = some false) ∧ perm.Nodup := by
  induction perm generalizing marks with
  | nil => simp [meetsOnce]
  | cons v rest ih =>
    rw [meetsOnce]
    split
    · next hfree =>
      have hset : ∀ u, (marks.set v true)[u]? = some false ↔ marks[u]? = some false ∧ u ≠ v := by
        intro u
        rw [List.getElem?_set]
        split
        · next heq => simp [heq]
        · next hne => exact (and_iff_left (Ne.symm hne)).symm
      rw [ih, List.nodup_cons, List.forall_mem_cons]
      simp only [hset]
      constructor
      · rintro ⟨hrest, hnodup⟩
        exact ⟨⟨hfree, fun u hu => (hrest u hu).1⟩, fun hv => (hrest v hv).2 rfl, hnodup⟩
      · rintro ⟨⟨-, hrest⟩, hv, hnodup⟩
        exact ⟨fun u hu => ⟨hrest u hu, fun heq => hv (heq ▸ hu)⟩, hnodup⟩
    · next hset => exact iff_of_false nofun fun h => hset (h.1 v List.mem_cons_self)

theorem meetsOnce_replicate_iff {n : Nat} {perm : List Nat} (hlength : perm.length = n) :
    meetsOnce (List.replicate n false) perm = true ↔ perm.Perm (List.range n) := by
  have hmark : ∀ v, (List.replicate n false)[v]? = some false ↔ v < n := fun v => by
    simp [List.getElem?_replicate]
  rw [meetsOnce_iff, ← isPermutation_iff_perm, isPermutation_iff, and_iff_right hlength]
  simp only [hmark]

theorem length_placeLabels (places : List String) (labels : List (Nat × String)) :
    (placeLabels places labels).length = places.length := by
  induction labels generalizing places with
  | nil => rfl
  | cons label rest ih => exact (ih _).trans List.length_set

theorem getElem?_placeLabels_of_not_mem {places : List String} {labels : List (Nat × String)}
    {v : Nat} (hv : v ∉ labels.map Prod.fst) : (placeLabels places labels)[v]? = places[v]? := by
  induction labels generalizing places with
  | nil => rfl
  | cons label rest ih =>
    rw [List.map_cons, List.mem_cons, not_or] at hv
    exact (ih hv.2).trans (List.getElem?_set_ne (Ne.symm hv.1))

/-- Of labels for different places each one is found in its place. -/
theorem getElem?_placeLabels_of_mem {places : List String} {labels : List (Nat × String)}
    (hnodup : (labels.map Prod.fst).Nodup) {v : Nat} {label : String}
    (hmem : (v, label) ∈ labels) (hv : v < places.length) :
    (placeLabels places labels)[v]? = some label := by
  induction labels generalizing places with
  | nil => exact absurd hmem List.not_mem_nil
  | cons first rest ih =>
    rw [List.map_cons, List.nodup_cons] at hnodup
    rcases List.mem_cons.mp hmem with rfl | hmem
    -- what is placed later leaves the first place alone
    · exact (getElem?_placeLabels_of_not_mem hnodup.1).trans (List.getElem?_set_self hv)
    · exact ih hnodup.2 hmem (List.length_set.symm ▸ hv)

namespace Graph

variable {g h k : Graph} {p q : List Nat}

/-! ### The labels of a renumbered graph -/

/-- **The labels of a renumbered graph** are those in which every node has its label at its new
number. -/
theorem eq_renumberedLabels_iff (hp : p.Perm (List.range g.nodeCount)) {labels : List String} :
    labels = g.renumberedLabels p ↔ labels.length = g.nodeCount ∧
      ∀ v < g.nodeCount, labels[p.getD v v]? = g.labels[v]? := by
  have hlength := Permutation.length_eq hp
  have hat : ∀ v < g.nodeCount, (g.renumberedLabels p)[p.getD v v]? = g.labels[v]? := by
    intro v hv
    have hget : p.idxOf (p.getD v v) = v := by
      rw [List.getD_eq_getElem _ _ (hlength ▸ hv), (Permutation.nodup hp).idxOf_getElem]
    rw [renumberedLabels, List.getElem?_map, List.getElem?_range (Permutation.getD_lt hp hv),
      Option.map_some, hget,
      List.getElem?_eq_getElem hv, List.getD_eq_getElem _ _ hv]
  constructor
  · rintro rfl
    exact ⟨by simp [renumberedLabels], hat⟩
  · rintro ⟨hcount, hlabels⟩
    refine List.ext_getElem? fun w => ?_
    by_cases hw : w < g.nodeCount
    -- every number is the new number of the node that stands at its place
    · have hmem : w ∈ p := hp.mem_iff.mpr (List.mem_range.mpr hw)
      have hplace := List.idxOf_lt_length_of_mem hmem
      have hget : p.getD (p.idxOf w) (p.idxOf w) = w := by
        rw [List.getD_eq_getElem _ _ hplace, List.getElem_idxOf]
      have hlt : p.idxOf w < g.nodeCount := hlength ▸ hplace
      rw [← hget, hlabels _ hlt, hat _ hlt]
    · rw [List.getElem?_eq_none (by omega),
        List.getElem?_eq_none (by simpa [renumberedLabels] using hw)]

/-- Labels that are put into their places are the labels of the renumbered graph. -/
theorem placeLabels_eq (hp : p.Perm (List.range g.nodeCount)) :
    placeLabels (List.replicate g.nodeCount "")
      (p.zipIdx.map fun (new, old) => (new, g.labels.getD old "")) = g.renumberedLabels p := by
  have hlength := Permutation.length_eq hp
  refine (eq_renumberedLabels_iff hp).mpr ⟨by rw [length_placeLabels, List.length_replicate], ?_⟩
  intro v hv
  have hplaces : (p.zipIdx.map fun (new, old) => (new, g.labels.getD old "")).map Prod.fst = p := by
    rw [List.map_map]
    exact List.zipIdx_map_fst 0 p
  have hmem : (p.getD v v, g.labels.getD v "") ∈
      p.zipIdx.map fun (new, old) => (new, g.labels.getD old "") := by
    refine List.mem_map.mpr ⟨(p.getD v v, v), ?_, rfl⟩
    rw [List.mem_zipIdx_iff_getElem?, List.getD_eq_getElem _ _ (hlength ▸ hv)]
    exact List.getElem?_eq_getElem _
  have hplace : p.getD v v < (List.replicate g.nodeCount "").length := by
    rw [List.length_replicate]
    exact Permutation.getD_lt hp hv
  refine (getElem?_placeLabels_of_mem ?_ hmem hplace).trans ?_
  · rw [hplaces]
    exact Permutation.nodup hp
  · rw [List.getElem?_eq_getElem hv, List.getD_eq_getElem _ _ hv]

/-- **Renumbering by marks** is renumbering. -/
theorem permute_indexed (g : Graph) (perm : List Nat) :
    g.indexed.permute perm = (g.renumber perm).map indexed := by
  have hcheck : (perm.length ≠ g.nodeCount || !meetsOnce (List.replicate g.nodeCount false) perm) =
      !isPermutation g.nodeCount perm := by
    rw [Bool.eq_iff_iff]
    by_cases hlength : perm.length = g.nodeCount
    · have hmeets := meetsOnce_replicate_iff hlength
      simp [hlength, ← Bool.not_eq_true, hmeets, isPermutation_iff_perm]
    · simp [hlength, isPermutation]
  rw [IndexedGraph.permute, renumber, labels_indexed, edges_indexed]
  show (if perm.length ≠ g.nodeCount || !meetsOnce (List.replicate g.nodeCount false) perm then
    _ else _) = _
  rw [hcheck]
  by_cases hperm : isPermutation g.nodeCount perm = true
  · have hlabels := placeLabels_eq (isPermutation_iff_perm.mp hperm)
    rw [if_neg (by simp [hperm]), if_pos hperm]
    exact (congrArg (IndexedGraph.ofParts · _) hlabels).trans (IndexedGraph.ofParts_eq _ _)
  · rw [if_pos (by simp [hperm]), if_neg hperm]
    rfl

theorem indexed_injective : Function.Injective indexed := by
  rintro ⟨labels, edges, _⟩ ⟨labels', edges', _⟩ heq
  have hlabels : labels = labels' := congrArg IndexedGraph.labels heq
  have hedges : edges = edges' := congrArg IndexedGraph.edges heq
  subst hlabels hedges
  rfl

theorem permute_indexed_eq_ok_iff :
    g.indexed.permute p = .ok h.indexed ↔ g.renumber p = .ok h := by
  rw [permute_indexed]
  cases g.renumber p with
  | error cause => exact iff_of_false nofun nofun
  | ok k =>
    refine ⟨fun heq => ?_, fun heq => ?_⟩
    · exact congrArg Except.ok (indexed_injective (Except.ok.inj heq))
    · exact congrArg (Except.map indexed) heq

/-! ### One renumbering after another -/

theorem renumber_eq_ok_iff_perm : g.renumber p = .ok h ↔ p.Perm (List.range g.nodeCount) ∧
    (h.nodeCount = g.nodeCount ∧ ∀ v < g.nodeCount, h.labels[p.getD v v]? = g.labels[v]?) ∧
    h.edges = g.renumberedEdges p := by
  rw [renumber_eq_ok_iff, isPermutation_iff_perm]
  refine and_congr_right fun hp => ?_
  rw [eq_renumberedLabels_iff hp]
  rfl

/-- **One renumbering after another** is the renumbering by the composed permutation. -/
theorem renumber_bind_renumber (hp : p.Perm (List.range g.nodeCount))
    (hq : q.Perm (List.range g.nodeCount)) :
    (g.renumber p).bind (·.renumber q) = g.renumber (Permutation.andThen p q) := by
  obtain ⟨h, hh⟩ := exists_renumber (isPermutation_iff_perm.mpr hp)
  obtain ⟨-, ⟨hcount, hlabels⟩, hedges⟩ := renumber_eq_ok_iff_perm.mp hh
  obtain ⟨k, hk⟩ := exists_renumber (g := h) (isPermutation_iff_perm.mpr (hcount.symm ▸ hq))
  obtain ⟨-, ⟨hcount', hlabels'⟩, hedges'⟩ := renumber_eq_ok_iff_perm.mp hk
  have hat : ∀ v < g.nodeCount,
      (Permutation.andThen p q).getD v v = q.getD (p.getD v v) (p.getD v v) := fun v hv =>
    Permutation.getD_andThen (hv.trans_eq (Permutation.length_eq hp).symm)
  have hboth : g.renumber (Permutation.andThen p q) = .ok k := by
    refine renumber_eq_ok_iff_perm.mpr ⟨Permutation.andThen_perm hp hq,
      ⟨hcount'.trans hcount, fun v hv => ?_⟩, ?_⟩
    · rw [hat v hv, hlabels' _ (hcount.symm ▸ Permutation.getD_lt hp hv), hlabels v hv]
    · rw [hedges', renumberedEdges, hedges, renumberedEdges, renumberedEdges, List.map_map]
      refine List.map_congr_left fun e he => ?_
      obtain ⟨hs, ht⟩ := g.endpoints_lt e he
      simp only [Function.comp_apply, Edge.mapNodes, hat _ hs, hat _ ht]
  rw [hh, hboth]
  exact hk

/-- The permutation that sends every number to itself changes nothing. -/
theorem renumber_range (g : Graph) : g.renumber (List.range g.nodeCount) = .ok g := by
  have hat : ∀ v < g.nodeCount, (List.range g.nodeCount).getD v v = v := fun v hv => by simp [hv]
  refine renumber_eq_ok_iff_perm.mpr ⟨List.Perm.refl _, ⟨rfl, fun v hv => by rw [hat v hv]⟩, ?_⟩
  rw [renumberedEdges]
  refine ((List.map_congr_left fun e he => ?_).trans (List.map_id _)).symm
  obtain ⟨hs, ht⟩ := g.endpoints_lt e he
  rw [Edge.mapNodes, hat _ hs, hat _ ht]
  rfl

theorem permute_bind_permute (g : Graph) (p q : List Nat) :
    (g.indexed.permute p).bind (·.permute q) =
      ((g.renumber p).bind (·.renumber q)).map indexed := by
  rw [permute_indexed]
  cases g.renumber p with
  | error cause => rfl
  | ok h => exact permute_indexed h q

end Graph

/-! ### Matches in isomorphic graphs -/

namespace Pattern

variable {p : Pattern} {a b : GraphView} {f : Nat → Nat} {m : List Nat}

/-- **The matches in an isomorphic graph** are the matches with their images sent along. -/
theorem isMatch_iff_of_isIso (hf : GraphView.IsIso f a b) :
    p.IsMatch b m ↔ ∃ m', p.IsMatch a m' ∧ m'.map f = m := by
  constructor
  · intro hm
    obtain ⟨inverse, hinverse, -, hright⟩ := hf.exists_symm
    refine ⟨m.map inverse, hm.map hinverse.liesIn, ?_⟩
    rw [List.map_map]
    exact (List.map_congr_left fun x hx => hright x (hm.lt_nodeCount x hx)).trans (List.map_id m)
  · rintro ⟨m', hm', rfl⟩
    exact hm'.map hf.liesIn

/-- Every match is found once in the isomorphic graph. -/
theorem occurrences_perm_of_isIso (hp : p.inRange = true) (hf : GraphView.IsIso f a b) :
    (p.occurrences none b).Perm ((p.occurrences none a).map (List.map f)) := by
  obtain ⟨inverse, -, hleft, -⟩ := hf.exists_symm
  have hback : ∀ m ∈ p.occurrences none a, (m.map f).map inverse = m := by
    intro m hm
    have hlt := ((mem_occurrences_iff hp).mp hm).lt_nodeCount
    rw [List.map_map]
    exact (List.map_congr_left fun x hx => hleft x (hlt x hx)).trans (List.map_id m)
  have hnodup : ((p.occurrences none a).map (List.map f)).Nodup :=
    (nodup_occurrences hp).map_on fun m hm m' hm' heq => by
      rw [← hback m hm, heq, hback m' hm']
  refine (List.perm_ext_iff_of_nodup (nodup_occurrences hp) hnodup).mpr fun m => ?_
  simp only [List.mem_map, mem_occurrences_iff hp]
  exact isMatch_iff_of_isIso hf

end Pattern

/-! ### Renumbering graphs and matches -/

/-- A hit with its images renumbered. -/
def Hit.renumbered (perm : List Nat) (hit : Hit) : Hit :=
  ⟨hit.pattern, ⟨hit.occurrence.images.map fun v => perm.getD v v⟩⟩

namespace Graph

variable {g h : Graph} {perm : List Nat}

theorem searchOne_renumber {pattern : Pattern} (hpattern : pattern.inRange = true)
    (hperm : g.renumber perm = .ok h) {maxHits : Nat}
    (hcap : {m | pattern.IsMatch g.view m}.ncard ≤ maxHits) :
    (searchOne maxHits storeHits pattern none h.view []).state.Perm
      ((searchOne maxHits storeHits pattern none g.view []).state.map (Hit.renumbered perm)) := by
  have hfound := Pattern.occurrences_perm_of_isIso hpattern (isIso_renumber hperm)
  rw [Pattern.ncard_isMatch hpattern] at hcap
  have hcap' : (pattern.occurrences none h.view).length ≤ maxHits := by
    rwa [hfound.length_eq, List.length_map]
  rw [searchOne_state pattern none _ hcap, searchOne_state pattern none _ hcap',
    Listener.hear_storeHits, Listener.hear_storeHits, List.nil_append, List.nil_append,
    Pattern.hits, Pattern.hits, List.map_map]
  have hhits := hfound.map fun m => (⟨0, ⟨m⟩⟩ : Hit)
  rwa [List.map_map] at hhits

/-- **Renumbering is an action** of the permutations of the nodes, and of no other lists: one
renumbering after another is the one by the composed permutation, and the inverse gives back the
graph as it was stored. Renumbered graphs are isomorphic, and the matches in them are the renumbered
matches. -/
theorem permute_action (g : Graph) :
    (∀ perm, ((∃ h : Graph, g.indexed.permute perm = .ok h.indexed) ↔
        perm.Perm (List.range g.nodeCount)) ∧
      (¬perm.Perm (List.range g.nodeCount) →
        g.indexed.permute perm = .error (.notAPermutation g.nodeCount perm.length))) ∧
    (∀ p q, p.Perm (List.range g.nodeCount) → q.Perm (List.range g.nodeCount) →
      (g.indexed.permute p).bind (·.permute q) = g.indexed.permute (Permutation.andThen p q)) ∧
    (∀ p, p.Perm (List.range g.nodeCount) →
      Permutation.andThen p (Permutation.inverse p) = List.range g.nodeCount ∧
      (g.indexed.permute p).bind (·.permute (Permutation.inverse p)) = .ok g.indexed) ∧
    ∀ p (h : Graph), g.indexed.permute p = .ok h.indexed →
      GraphView.IsIso (fun v => p.getD v v) g.view h.view ∧
      isIsomorphic g.view h.view = true ∧
      ∀ pattern : Pattern, pattern.inRange = true →
        {m | pattern.IsMatch h.view m} =
          List.map (fun v => p.getD v v) '' {m | pattern.IsMatch g.view m} ∧
        ∀ maxHits, {m | pattern.IsMatch g.view m}.ncard ≤ maxHits →
          (searchOne maxHits storeHits pattern none h.view []).state.Perm
            ((searchOne maxHits storeHits pattern none g.view []).state.map
              (Hit.renumbered p)) := by
  refine ⟨fun perm => ⟨?_, fun hperm => ?_⟩, fun p q hp hq => ?_,
    fun p hp => ⟨Permutation.andThen_inverse hp, ?_⟩, fun p h hp => ?_⟩
  · simp only [permute_indexed_eq_ok_iff]
    exact ⟨fun ⟨h, hh⟩ => (renumber_eq_ok_iff_perm.mp hh).1,
      fun hperm => exists_renumber (isPermutation_iff_perm.mpr hperm)⟩
  · rw [← isPermutation_iff_perm] at hperm
    rw [permute_indexed, renumber, if_neg hperm]
    rfl
  · rw [permute_bind_permute, renumber_bind_renumber hp hq, permute_indexed]
  · rw [permute_bind_permute, renumber_bind_renumber hp (Permutation.inverse_perm hp),
      Permutation.andThen_inverse hp, renumber_range]
    rfl
  · rw [permute_indexed_eq_ok_iff] at hp
    have hiso := isIso_renumber hp
    refine ⟨hiso, isIsomorphic_iff.mpr ⟨_, hiso⟩, fun pattern hpattern => ⟨?_, fun maxHits hcap =>
      searchOne_renumber hpattern hp hcap⟩⟩
    ext m
    exact Pattern.isMatch_iff_of_isIso hiso

/-- Two rays whose centre comes last. -/
def raysFirst : Graph := ⟨["b", "b", "a"], [⟨2, 0, "-"⟩, ⟨2, 1, "-"⟩], by decide⟩

/-- The centre of two rays is moved behind them and back, and the rays are found there. A list with
a number twice is refused. -/
theorem permute_action_twoRays :
    [2, 0, 1].Perm (List.range twoRays.nodeCount) ∧ [1, 2, 0].Perm (List.range twoRays.nodeCount) ∧
    twoRays.indexed.permute [2, 0, 1] = .ok raysFirst.indexed ∧
    (twoRays.indexed.permute [2, 0, 1]).bind (·.permute [1, 2, 0]) =
      twoRays.indexed.permute (Permutation.andThen [2, 0, 1] [1, 2, 0]) ∧
    (twoRays.indexed.permute [2, 0, 1]).bind (·.permute (Permutation.inverse [2, 0, 1])) =
      .ok twoRays.indexed ∧
    ¬[2, 0, 2].Perm (List.range twoRays.nodeCount) ∧
    twoRays.indexed.permute [2, 0, 2] = .error (.notAPermutation twoRays.nodeCount 3) ∧
    Pattern.ray.inRange = true ∧ {m | Pattern.ray.IsMatch twoRays.view m}.ncard ≤ 2 ∧
    isIsomorphic twoRays.view raysFirst.view = true ∧
    (searchOne 2 storeHits Pattern.ray none raysFirst.view []).state.Perm
      ((searchOne 2 storeHits Pattern.ray none twoRays.view []).state.map
        (Hit.renumbered [2, 0, 1])) := by
  have hthere : [2, 0, 1].Perm (List.range twoRays.nodeCount) := by decide
  have hback : [1, 2, 0].Perm (List.range twoRays.nodeCount) := by decide
  have htwice : ¬[2, 0, 2].Perm (List.range twoRays.nodeCount) := by decide
  have hmoved : twoRays.indexed.permute [2, 0, 1] = .ok raysFirst.indexed := by rfl
  have hp : Pattern.ray.inRange = true := by decide +kernel
  have hcap : {m | Pattern.ray.IsMatch twoRays.view m}.ncard ≤ 2 := by
    rw [Pattern.ncard_isMatch hp]
    decide +kernel
  obtain ⟨hpermutations, hthen, hinverse, hmatches⟩ := permute_action twoRays
  obtain ⟨-, hisomorphic, hsearch⟩ := hmatches _ _ hmoved
  exact ⟨hthere, hback, hmoved, hthen _ _ hthere hback, (hinverse _ hthere).2, htwice,
    (hpermutations _).2 htwice, hp, hcap, hisomorphic, (hsearch _ hp).2 2 hcap⟩

end Graph

end GraphGrammar
