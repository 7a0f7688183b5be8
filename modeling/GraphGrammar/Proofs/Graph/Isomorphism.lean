import Mathlib.Data.Finset.Card
import Mathlib.Data.Fintype.Card
import GraphGrammar.Proofs.Graph.Bonds

/-!
# Isomorphic graphs

An isomorphism is a bijection between the nodes of two graphs that preserves the labels of nodes
and, between any two nodes, the labels of edges.

## Main definitions

* `GraphGrammar.GraphView.IsIso` — a map that is an isomorphism.
* `GraphGrammar.Graph.Isomorphic` — graphs between which there is one.

## Main results

* `GraphGrammar.GraphView.exists_isIso_iff_exists_equiv` — isomorphisms as bijections between the
  nodes.
* `GraphGrammar.Graph.isIso_view_iff` — an isomorphism sends the edges to the edges.
* `GraphGrammar.Graph.Isomorphic.symm`, `GraphGrammar.Graph.Isomorphic.trans`.
-/

namespace GraphGrammar

/-- A map of the numbers below `n` to themselves that is one to one is onto. -/
theorem exists_preimage_of_inj {f : Nat → Nat} {n : Nat} (hlt : ∀ {v : Nat}, v < n → f v < n)
    (hinj : ∀ {u v : Nat}, u < n → v < n → f u = f v → u = v) {w : Nat} (hw : w < n) :
    ∃ v < n, f v = w := by
  have hsurj := Finset.surjOn_of_injOn_of_card_le f (s := Finset.range n) (t := Finset.range n)
    (fun v hv => by simpa using hlt (by simpa using hv))
    (fun u hu v hv => hinj (by simpa using hu) (by simpa using hv)) (Nat.le_refl _)
  obtain ⟨v, hv, heq⟩ := hsurj (by simpa using hw)
  exact ⟨v, by simpa using hv, heq⟩

/-- A map of the numbers below `n` to themselves that is one to one lists them all. -/
theorem map_range_perm {n : Nat} {f : Nat → Nat} (hlt : ∀ s < n, f s < n)
    (hinj : ∀ {s s'}, s < n → s' < n → f s = f s' → s = s') :
    ((List.range n).map f).Perm (List.range n) := by
  have hnodup : ((List.range n).map f).Nodup :=
    List.nodup_range.map_on fun s hs s' hs' => hinj (List.mem_range.mp hs) (List.mem_range.mp hs')
  refine perm_range_of_nodup hnodup (fun s' hs' => ?_) (by simp)
  obtain ⟨s, hs, rfl⟩ := List.mem_map.mp hs'
  exact hlt s (List.mem_range.mp hs)

namespace GraphView

/-- A map that sends the nodes of a graph to those of another one, one to one and onto, with their
labels and the labels of the edges between them. -/
structure IsIso (f : Nat → Nat) (a b : GraphView) : Prop where
  /-- There are as many nodes. -/
  nodeCount_eq : a.nodeCount = b.nodeCount
  /-- Nodes are sent to nodes. -/
  lt : ∀ {v : Nat}, v < a.nodeCount → f v < b.nodeCount
  /-- Distinct nodes are sent to distinct nodes. -/
  inj : ∀ {u v : Nat}, u < a.nodeCount → v < a.nodeCount → f u = f v → u = v
  /-- Labels are preserved. -/
  label_eq : ∀ {v : Nat}, v < a.nodeCount → b.label (f v) = a.label v
  /-- The labels of the edges between two nodes are preserved. -/
  labels_perm : ∀ {u v : Nat}, u < a.nodeCount → v < a.nodeCount →
    (a.labelsBetween u v).Perm (b.labelsBetween (f u) (f v))

namespace IsIso

variable {f h : Nat → Nat} {a b c : GraphView}

theorem refl (a : GraphView) : IsIso (fun v => v) a a :=
  ⟨rfl, fun hv => hv, fun _ _ heq => heq, fun _ => rfl, fun _ _ => List.Perm.refl _⟩

theorem trans (hf : IsIso f a b) (hh : IsIso h b c) : IsIso (fun v => h (f v)) a c where
  nodeCount_eq := hf.nodeCount_eq.trans hh.nodeCount_eq
  lt hv := hh.lt (hf.lt hv)
  inj hu hv heq := hf.inj hu hv (hh.inj (hf.lt hu) (hf.lt hv) heq)
  label_eq hv := (hh.label_eq (hf.lt hv)).trans (hf.label_eq hv)
  labels_perm hu hv := (hf.labels_perm hu hv).trans (hh.labels_perm (hf.lt hu) (hf.lt hv))

/-- Only the images of nodes count. -/
theorem congr (hf : IsIso f a b) (heq : ∀ v < a.nodeCount, f v = h v) : IsIso h a b where
  nodeCount_eq := hf.nodeCount_eq
  lt hv := heq _ hv ▸ hf.lt hv
  inj hu hv himage := hf.inj hu hv ((heq _ hu).trans (himage.trans (heq _ hv).symm))
  label_eq hv := heq _ hv ▸ hf.label_eq hv
  labels_perm hu hv := heq _ hu ▸ heq _ hv ▸ hf.labels_perm hu hv

/-- Every node is the image of a node. -/
theorem exists_preimage (hf : IsIso f a b) {w : Nat} (hw : w < b.nodeCount) :
    ∃ v < a.nodeCount, f v = w :=
  exists_preimage_of_inj (fun hv => hf.nodeCount_eq ▸ hf.lt hv) hf.inj (hf.nodeCount_eq ▸ hw)

/-- The inverse map. -/
theorem exists_symm (hf : IsIso f a b) : ∃ inverse, IsIso inverse b a ∧
    (∀ v < a.nodeCount, inverse (f v) = v) ∧ ∀ w < b.nodeCount, f (inverse w) = w := by
  have hchoice : ∀ w, ∃ v, w < b.nodeCount → v < a.nodeCount ∧ f v = w := by
    intro w
    by_cases hw : w < b.nodeCount
    · obtain ⟨v, hv, heq⟩ := hf.exists_preimage hw
      exact ⟨v, fun _ => ⟨hv, heq⟩⟩
    · exact ⟨0, fun h => absurd h hw⟩
  choose inverse hinverse using hchoice
  refine ⟨inverse, ⟨hf.nodeCount_eq.symm, fun hw => (hinverse _ hw).1, fun hu hv heq => ?_,
    fun hw => ?_, fun hu hv => ?_⟩, fun v hv => ?_, fun w hw => (hinverse w hw).2⟩
  · rw [← (hinverse _ hu).2, ← (hinverse _ hv).2, heq]
  · obtain ⟨hlt, heq⟩ := hinverse _ hw
    rw [← hf.label_eq hlt, heq]
  · obtain ⟨hult, hueq⟩ := hinverse _ hu
    obtain ⟨hvlt, hveq⟩ := hinverse _ hv
    have := hf.labels_perm hult hvlt
    rw [hueq, hveq] at this
    exact this.symm
  · obtain ⟨hlt, heq⟩ := hinverse (f v) (hf.lt hv)
    exact hf.inj hlt hv heq

/-- What is listed for every node is listed for every image. -/
theorem map_range_perm {α : Type} (hf : IsIso f a b) (label : Nat → α) :
    ((List.range a.nodeCount).map fun v => label (f v)).Perm
      ((List.range b.nodeCount).map label) := by
  have hperm := GraphGrammar.map_range_perm (fun v hv => hf.nodeCount_eq ▸ hf.lt hv) hf.inj
  have hlabels := hperm.map label
  rw [List.map_map] at hlabels
  rw [← hf.nodeCount_eq]
  exact hlabels

/-- The edges around a node. -/
theorem incident_perm (hf : IsIso f a b) {v : Nat} (hv : v < a.nodeCount) :
    ((a.incident v).map fun e => (⟨f e.node, e.label⟩ : Incidence)).Perm (b.incident (f v)) := by
  refine List.perm_iff_count.mpr fun ⟨w, l⟩ => ?_
  rw [← b.count_labelsBetween]
  by_cases hw : w < b.nodeCount
  · obtain ⟨u, hu, rfl⟩ := hf.exists_preimage hw
    rw [← (hf.labels_perm hv hu).count_eq, a.count_labelsBetween, List.count_eq_countP,
      List.count_eq_countP, List.countP_map]
    refine List.countP_congr fun e he => ?_
    have hnode := (a.mem_lt he).2
    obtain ⟨node, label⟩ := e
    simp only [Function.comp_apply, beq_iff_eq, Incidence.mk.injEq]
    exact and_congr_left fun _ => ⟨hf.inj hnode hu, fun heq => heq ▸ rfl⟩
  · rw [List.count_eq_zero.mpr, List.count_eq_zero.mpr]
    · exact fun hl => hw (b.lt_of_mem_labelsBetween hl).2
    · rw [List.mem_map]
      rintro ⟨e, he, heq⟩
      have := hf.lt (a.mem_lt he).2
      rw [Incidence.mk.injEq] at heq
      rw [heq.1] at this
      exact hw this

theorem degree_eq (hf : IsIso f a b) {v : Nat} (hv : v < a.nodeCount) :
    b.degree (f v) = a.degree v := by
  rw [degree, degree, ← (hf.incident_perm hv).length_eq, List.length_map]

theorem selfLoops_eq (hf : IsIso f a b) {v : Nat} (hv : v < a.nodeCount) :
    b.selfLoops (f v) = a.selfLoops v := by
  rw [← length_labelsBetween_self, ← length_labelsBetween_self, (hf.labels_perm hv hv).length_eq]

theorem edgeCount_eq (hf : IsIso f a b) : a.edgeCount = b.edgeCount := by
  have hends : ∀ v ∈ List.range a.nodeCount,
      b.degree (f v) + b.selfLoops (f v) = a.degree v + a.selfLoops v := fun v hv => by
    rw [hf.degree_eq (List.mem_range.mp hv), hf.selfLoops_eq (List.mem_range.mp hv)]
  have hsum := (hf.map_range_perm fun w => b.degree w + b.selfLoops w).sum_eq
  rw [List.map_congr_left hends] at hsum
  have hdouble : 2 * a.edgeCount = 2 * b.edgeCount :=
    a.sum_degree_add_selfLoops.symm.trans (hsum.trans b.sum_degree_add_selfLoops)
  omega

theorem hasEdge_eq (hf : IsIso f a b) {u v : Nat} (hu : u < a.nodeCount) (hv : v < a.nodeCount) :
    b.hasEdge (f u) (f v) = a.hasEdge u v :=
  (hasEdge_eq_of_length_eq (hf.labels_perm hu hv).length_eq).symm

end IsIso

/-- An isomorphism is a bijection between the nodes. -/
theorem exists_isIso_iff_exists_equiv {a b : GraphView} : (∃ f, IsIso f a b) ↔
    ∃ f : Fin a.nodeCount ≃ Fin b.nodeCount, (∀ v, b.label (f v) = a.label v) ∧
      ∀ u v : Fin a.nodeCount, (a.labelsBetween u v).Perm (b.labelsBetween (f u) (f v)) := by
  constructor
  · rintro ⟨f, hf⟩
    have hbijective : Function.Bijective
        fun v : Fin a.nodeCount => (⟨f v, hf.lt v.isLt⟩ : Fin b.nodeCount) := by
      refine ⟨fun u v heq => Fin.ext (hf.inj u.isLt v.isLt (Fin.mk.inj heq)), fun w => ?_⟩
      obtain ⟨v, hv, heq⟩ := hf.exists_preimage w.isLt
      exact ⟨⟨v, hv⟩, Fin.ext heq⟩
    exact ⟨Equiv.ofBijective _ hbijective, fun v => hf.label_eq v.isLt,
      fun u v => hf.labels_perm u.isLt v.isLt⟩
  · rintro ⟨f, hlabel, hlabels⟩
    let image : Nat → Nat := fun v => if hv : v < a.nodeCount then f ⟨v, hv⟩ else 0
    have himage : ∀ {v} (hv : v < a.nodeCount), image v = f ⟨v, hv⟩ := fun hv => dif_pos hv
    refine ⟨image, ?_, fun hv => ?_, fun hu hv heq => ?_, fun hv => ?_, fun hu hv => ?_⟩
    · simpa using Fintype.card_congr f
    · rw [himage hv]
      exact (f ⟨_, hv⟩).isLt
    · rw [himage hu, himage hv] at heq
      exact congrArg Fin.val (f.injective (Fin.ext heq))
    · rw [himage hv]
      exact hlabel ⟨_, hv⟩
    · rw [himage hu, himage hv]
      exact hlabels ⟨_, hu⟩ ⟨_, hv⟩

/-- A view and the graph that lists its edges are isomorphic. -/
theorem isIso_toGraph (t : GraphView) : IsIso (fun v => v) t.toGraph.view t where
  nodeCount_eq := t.nodeCount_toGraph
  lt hv := t.nodeCount_toGraph ▸ hv
  inj _ _ heq := heq
  label_eq {v} hv := by
    have hlt : v < t.nodeCount := t.nodeCount_toGraph ▸ hv
    rw [Graph.view_label, toGraph, List.getD_eq_getElem?_getD, List.getElem?_map,
      List.getElem?_range hlt]
    rfl
  labels_perm _ _ := t.labelsBetween_toGraph _ _

theorem isIso_toGraph_symm (t : GraphView) : IsIso (fun v => v) t t.toGraph.view := by
  obtain ⟨inverse, hinverse, hleft, -⟩ := t.isIso_toGraph.exists_symm
  exact hinverse.congr fun v hv => hleft v (by
    rwa [Graph.view_nodeCount, ← Graph.nodeCount, nodeCount_toGraph])

end GraphView

/-! ### Isomorphisms on lists of edges -/

/-- Edges are counted the same after their nodes were sent elsewhere one to one. -/
theorem count_map_bond {edges : List Edge} {n : Nat}
    (hedges : ∀ e ∈ edges, e.source < n ∧ e.target < n) {f : Nat → Nat}
    (hf : ∀ {u v : Nat}, u < n → v < n → f u = f v → u = v) {u v : Nat} (hu : u < n) (hv : v < n)
    (l : String) : (edges.map fun e => e.bond.map f).count (s(f u, f v), l) =
      (edges.map Edge.bond).count (s(u, v), l) := by
  rw [List.count_eq_countP, List.count_eq_countP, List.countP_map, List.countP_map]
  refine List.countP_congr fun e he => ?_
  obtain ⟨hs, ht⟩ := hedges e he
  have hiff : ∀ {x y}, x < n → y < n → (f x = f y ↔ x = y) := fun hx hy =>
    ⟨hf hx hy, fun heq => heq ▸ rfl⟩
  simp only [Function.comp_apply, Edge.bond, Bond.map_mk, beq_iff_eq, Prod.mk.injEq, Sym2.eq_iff,
    hiff hs hu, hiff ht hv, hiff hs hv, hiff ht hu]

/-- Lists of edges that have between corresponding nodes the same labels have the same edges, up to
order and direction. -/
theorem map_bond_perm_of_labelsAmong {edges edges' : List Edge} {n : Nat}
    (hedges : ∀ e ∈ edges, e.source < n ∧ e.target < n)
    (hedges' : ∀ e ∈ edges', e.source < n ∧ e.target < n) {f : Nat → Nat}
    (hlt : ∀ {v : Nat}, v < n → f v < n)
    (hinj : ∀ {u v : Nat}, u < n → v < n → f u = f v → u = v)
    (hlabels : ∀ {u v : Nat}, u < n → v < n →
      (labelsAmong edges u v).Perm (labelsAmong edges' (f u) (f v))) :
    (edges.map fun e => e.bond.map f).Perm (edges'.map Edge.bond) := by
  refine List.perm_iff_count.mpr ?_
  rintro ⟨z, l⟩
  induction z using Sym2.inductionOn with
  | hf x y =>
    by_cases hxy : x < n ∧ y < n
    · obtain ⟨u, hu, rfl⟩ := exists_preimage_of_inj hlt hinj hxy.1
      obtain ⟨v, hv, rfl⟩ := exists_preimage_of_inj hlt hinj hxy.2
      rw [count_map_bond hedges hinj hu hv, count_bond, count_bond, (hlabels hu hv).count_eq]
    · rw [List.count_eq_zero.mpr, List.count_eq_zero.mpr]
      · rw [List.mem_map]
        rintro ⟨e, he, heq⟩
        have := hedges' e he
        simp only [Edge.bond, Prod.mk.injEq, Sym2.eq_iff] at heq
        omega
      · rw [List.mem_map]
        rintro ⟨e, he, heq⟩
        have hs := hlt (hedges e he).1
        have ht := hlt (hedges e he).2
        simp only [Edge.bond, Bond.map_mk, Prod.mk.injEq, Sym2.eq_iff] at heq
        omega

namespace Graph

variable {g h k : Graph}

/-- **Isomorphisms of graphs** send the edges to the edges, up to order and direction. -/
theorem isIso_view_iff {f : Nat → Nat} : GraphView.IsIso f g.view h.view ↔
    g.nodeCount = h.nodeCount ∧ (∀ {v}, v < g.nodeCount → f v < h.nodeCount) ∧
      (∀ {u v}, u < g.nodeCount → v < g.nodeCount → f u = f v → u = v) ∧
      (∀ {v}, v < g.nodeCount → h.view.label (f v) = g.view.label v) ∧
      (g.edges.map fun e => e.bond.map f).Perm (h.edges.map Edge.bond) := by
  constructor
  · intro hf
    have hcount : h.labels.length = g.labels.length := hf.nodeCount_eq.symm
    refine ⟨hf.nodeCount_eq, hf.lt, hf.inj, hf.label_eq, ?_⟩
    refine map_bond_perm_of_labelsAmong g.endpoints_lt (hcount ▸ h.endpoints_lt)
      (fun hv => hcount ▸ hf.lt hv) hf.inj fun {u v} hu hv => ?_
    rw [← labelsBetween_view, ← labelsBetween_view]
    exact hf.labels_perm hu hv
  · rintro ⟨hcount, hlt, hinj, hlabel, hedges⟩
    refine ⟨hcount, hlt, hinj, hlabel, fun {u v} hu hv => List.perm_iff_count.mpr fun l => ?_⟩
    rw [labelsBetween_view, labelsBetween_view, ← count_bond, ← count_bond, ← hedges.count_eq,
      count_map_bond g.endpoints_lt hinj hu hv]

/-- Whether there is an isomorphism between two graphs. -/
def Isomorphic (g h : Graph) : Prop := ∃ f, GraphView.IsIso f g.view h.view

/-- Isomorphic graphs have as many edges. -/
theorem Isomorphic.length_edges_eq (h : Isomorphic g k) : g.edges.length = k.edges.length := by
  obtain ⟨f, hf⟩ := h
  have hperm := (isIso_view_iff.mp hf).2.2.2.2
  simpa using hperm.length_eq

/-- Isomorphic graphs have the same labels of edges. -/
theorem Isomorphic.edgeLabels_perm (h : Isomorphic g k) :
    (g.edges.map Edge.label).Perm (k.edges.map Edge.label) := by
  obtain ⟨f, hf⟩ := h
  have hperm := (isIso_view_iff.mp hf).2.2.2.2.map Prod.snd
  rwa [List.map_map, List.map_map] at hperm

theorem map_label_range (g : Graph) :
    (List.range g.view.nodeCount).map g.view.label = g.labels := by
  refine List.ext_getElem (by simp) fun v _ hv => ?_
  simp [view_label, hv]

/-- Isomorphic graphs have the same labels. -/
theorem Isomorphic.labels_perm (h : g.Isomorphic k) : g.labels.Perm k.labels := by
  obtain ⟨f, hf⟩ := h
  rw [← map_label_range g, ← map_label_range k]
  refine List.Perm.trans (List.Perm.of_eq ?_) (hf.map_range_perm k.view.label)
  exact List.map_congr_left fun v hv => (hf.label_eq (List.mem_range.mp hv)).symm

theorem Isomorphic.refl (g : Graph) : g.Isomorphic g := ⟨_, GraphView.IsIso.refl g.view⟩

theorem Isomorphic.symm (hgh : g.Isomorphic h) : h.Isomorphic g := by
  obtain ⟨f, hf⟩ := hgh
  obtain ⟨inverse, hinverse, -⟩ := hf.exists_symm
  exact ⟨inverse, hinverse⟩

theorem Isomorphic.trans (hgh : g.Isomorphic h) (hhk : h.Isomorphic k) : g.Isomorphic k := by
  obtain ⟨f, hf⟩ := hgh
  obtain ⟨f', hf'⟩ := hhk
  exact ⟨_, hf.trans hf'⟩

end Graph

end GraphGrammar
