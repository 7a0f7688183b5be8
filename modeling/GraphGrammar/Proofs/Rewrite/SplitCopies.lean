import GraphGrammar.Proofs.Rewrite.Equivariance

/-!
# Copies that are made beforehand

A step with a copy of the target for every component of the left side is a step on a target that
holds these copies already: for every component of the left side a copy of the component of the
target into which it is mapped, and then the components of the target into which none is mapped.
If no two components of the left side are mapped into one component of the target, nothing is copied
twice, and the result is the same as without copies.

## Main definitions

* `GraphGrammar.Rule.splitTarget` — the target that holds the copies.
* `GraphGrammar.Rule.splitMapping` — every node of the left side is mapped into its copy.

## Main results

* `GraphGrammar.Rule.copyComponents_eq_copyWhole` — the hosts are the same.
* `GraphGrammar.applyRule_split` — the results are the same.
-/

namespace GraphGrammar

namespace Rule

variable {r : Rule} {t : GraphView} {m : List Nat}

/-- The parts of the target that are copied. For every component of the left side, in their order,
the nodes that are linked with images of its nodes, and at the end the nodes that are linked with no
image. -/
def splitParts (r : Rule) (t : GraphView) (m : List Nat) : List (Nat → Bool) :=
  r.leftComponents.map (fun c u => c.any fun i => (m[i]?).any fun w => decide (t.Linked w u)) ++
    [fun u => m.all fun w => decide ¬t.Linked w u]

/-- The target that holds a copy for every component of the left side, and the rest. -/
def splitTarget (r : Rule) (t : GraphView) (m : List Nat) : Graph := t.parts (r.splitParts t m)

/-- The mapping that sends every node of the left side to its image in the copy for its
component. -/
def splitMapping (r : Rule) (t : GraphView) (m : List Nat) : List Nat :=
  m.zipIdx.map fun (u, i) =>
    let k := GraphView.classOf r.leftComponents i
    t.offset (r.splitParts t m) k + rank ((r.splitParts t m).getD k fun _ => false) u

/-! ### The host -/

theorem Images.ext_slot? {image image' : Images} (hlength : image.length = image'.length)
    (h : ∀ v, image.slot? v = image'.slot? v) : image = image' := by
  refine List.ext_getElem hlength fun v hv hv' => ?_
  have hslot := h v
  rwa [Images.slot?, Images.slot?, List.getElem?_eq_getElem hv, List.getElem?_eq_getElem hv',
    Option.join_some, Option.join_some] at hslot

section

variable (h : r.Applicable t m) (hr : r.isConsistent = true)

include h hr

/-- The components of the target in which components of the left side were found are those into
which they are mapped. -/
theorem forall₂_splitParts :
    List.Forall₂ (fun keep keep' => ∀ u < t.nodeCount, keep u = keep' u) (r.copiedParts t m)
      (r.splitParts t m) := by
  have himage : ∀ {c : List Nat} {k u : Nat}, r.leftComponents[k]? = some c → u < t.nodeCount →
      (isFound t.componentNumbers.1 m c u = true ↔
        ∃ i ∈ c, ∃ w, m[i]? = some w ∧ t.Linked w u) := by
    intro c k u hc hu
    rw [isFound, decide_eq_true_eq, h.hitOf_eq_iff hr hc hu]
    constructor
    · rintro ⟨v, w, hw, rfl, hlinked⟩
      obtain ⟨i, hi, hiw⟩ := imageOf_eq_some_iff.mp hw
      obtain ⟨c', hc', hic⟩ := r.exists_component hi
      rw [hc, Option.some.injEq] at hc'
      exact ⟨i, hc' ▸ hic, w, hiw, hlinked⟩
    · rintro ⟨i, hic, w, hiw, hlinked⟩
      have hlt : i < (r.sideNodes .left).length := by
        rw [← h.occurrence.length_eq]
        exact (List.getElem?_eq_some_iff.mp hiw).1
      have hi := List.getElem?_eq_getElem hlt
      exact ⟨_, w, imageOf_eq_some_iff.mpr ⟨i, hi, hiw⟩, copyNumber_of_mem hi hc hic, hlinked⟩
  refine List.rel_append ?_ (List.Forall₂.cons (fun u hu => ?_) List.Forall₂.nil)
  · rw [List.forall₂_map_left_iff, List.forall₂_map_right_iff, List.forall₂_same]
    intro c hc u hu
    obtain ⟨k, hk⟩ := List.mem_iff_getElem?.mp hc
    rw [Bool.eq_iff_iff, himage hk hu]
    simp only [List.any_eq_true, Option.any_eq_true, decide_eq_true_eq]
  · rw [Bool.eq_iff_iff, List.all_eq_true, List.all_eq_true]
    simp only [Bool.not_eq_true', decide_eq_true_eq, ← Bool.not_eq_true]
    constructor
    · intro hnone w hw hlinked
      obtain ⟨i, hi⟩ := List.mem_iff_getElem?.mp hw
      have hlt : i < (r.sideNodes .left).length := by
        rw [← h.occurrence.length_eq]
        exact (List.getElem?_eq_some_iff.mp hi).1
      obtain ⟨c, hc, hic⟩ := r.exists_component (List.getElem?_eq_getElem hlt)
      exact hnone c (List.mem_of_getElem? hc) ((himage hc hu).mpr ⟨i, hic, w, hi, hlinked⟩)
    · intro hnone c hc hfound
      obtain ⟨k, hk⟩ := List.mem_iff_getElem?.mp hc
      obtain ⟨i, -, w, hi, hlinked⟩ := (himage hk hu).mp hfound
      exact hnone w (List.mem_of_getElem? hi) hlinked

/-- **The host** is the target that holds the copies. -/
theorem copied_splitTarget : (r.copyComponents t m).1 = Arena.host (r.splitTarget t m) ∧
    r.Copied true t m (r.splitTarget t m) (r.copyComponents t m).2
      (t.spotsOfParts (r.splitParts t m)) := by
  have hparts := forall₂_splitParts h hr
  have hcopied := copied_copyComponents hr h
  have hhost := r.copyComponents_fst t m
  rw [GraphView.parts_congr hparts] at hcopied hhost
  rw [GraphView.spotsOfParts_congr hparts] at hcopied
  exact ⟨hhost, hcopied⟩

/-- Every node of the left side is mapped to its image in the copy for its component. -/
theorem getElem?_spots_splitMapping {i v u : Nat} (hi : (r.sideNodes .left)[i]? = some v)
    (hu : m[i]? = some u) : ∃ s, (r.splitMapping t m)[i]? = some s ∧
      (t.spotsOfParts (r.splitParts t m))[s]? = some (r.copyNumber true v, u) := by
  have hmem := (copied_splitTarget h hr).2.mem_of_imageOf h.occurrence
    (imageOf_eq_some_iff.mpr ⟨i, hi, hu⟩)
  obtain ⟨hlt, keep, hk, hkeep⟩ := GraphView.mem_spotsOfParts.mp hmem
  have hnumber : r.copyNumber true v = GraphView.classOf r.leftComponents i := by
    rw [copyNumber, if_pos rfl, localNumber?_eq_some_iff.mpr hi]
    rfl
  have hgetD : (r.splitParts t m).getD (r.copyNumber true v) (fun _ => false) = keep := by
    rw [List.getD_eq_getElem?_getD, hk, Option.getD_some]
  refine ⟨_, ?_, GraphView.getElem?_spotsOfParts.mpr ⟨keep, hk, hlt, hkeep, rfl⟩⟩
  rw [splitMapping, List.getElem?_map, List.getElem?_zipIdx, hu, Option.map_some, Option.map_some,
    Nat.zero_add, ← hgetD, hnumber]

theorem imageOf_splitMapping {v s : Nat} : r.imageOf (r.splitMapping t m) v = some s ↔
    ∃ u, r.imageOf m v = some u ∧
      (t.spotsOfParts (r.splitParts t m))[s]? = some (r.copyNumber true v, u) := by
  have hnodup := (copied_splitTarget h hr).2.spreads.nodup
  constructor
  · intro hs
    obtain ⟨i, hi, hs⟩ := imageOf_eq_some_iff.mp hs
    have hlt : i < m.length := by
      rw [h.occurrence.length_eq]
      exact (List.getElem?_eq_some_iff.mp hi).1
    have hu := List.getElem?_eq_getElem hlt
    obtain ⟨s', hs', hspot⟩ := getElem?_spots_splitMapping h hr hi hu
    obtain rfl := Option.some.inj (hs.symm.trans hs')
    exact ⟨_, imageOf_eq_some_iff.mpr ⟨i, hi, hu⟩, hspot⟩
  · rintro ⟨u, hu, hspot⟩
    obtain ⟨i, hi, hu⟩ := imageOf_eq_some_iff.mp hu
    obtain ⟨s', hs', hspot'⟩ := getElem?_spots_splitMapping h hr hi hu
    have hlt := (List.getElem?_eq_some_iff.mp hspot).1
    obtain rfl := (List.getElem?_inj hlt hnodup).mp (hspot.trans hspot'.symm)
    exact imageOf_eq_some_iff.mpr ⟨i, hi, hs'⟩

theorem occurrence_splitMapping :
    r.Occurrence (r.splitTarget t m).view (r.splitMapping t m) := by
  have hcopied := (copied_splitTarget h hr).2
  have hlength : (r.splitMapping t m).length = m.length := by
    rw [splitMapping, List.length_map, List.length_zipIdx]
  have hspot : ∀ {i s : Nat}, (r.splitMapping t m)[i]? = some s → ∃ k u, m[i]? = some u ∧
      (t.spotsOfParts (r.splitParts t m))[s]? = some (k, u) := by
    intro i s hs
    have hlt : i < m.length := hlength ▸ (List.getElem?_eq_some_iff.mp hs).1
    have hi := List.getElem?_eq_getElem (h.occurrence.length_eq ▸ hlt)
    have hu := List.getElem?_eq_getElem hlt
    obtain ⟨s', hs', hspot⟩ := getElem?_spots_splitMapping h hr hi hu
    obtain rfl := Option.some.inj (hs.symm.trans hs')
    exact ⟨_, _, hu, hspot⟩
  refine ⟨hlength.trans h.occurrence.length_eq, fun s hs => ?_, ?_⟩
  · obtain ⟨i, hi⟩ := List.mem_iff_getElem?.mp hs
    obtain ⟨k, u, -, hspot⟩ := hspot hi
    have hlt := (List.getElem?_eq_some_iff.mp hspot).1
    rwa [← hcopied.spreads.nodeCount_eq] at hlt
  · rw [List.nodup_iff_getElem?_ne_getElem?]
    intro i j hij hj heq
    have hs := List.getElem?_eq_getElem hj
    obtain ⟨k, u, hu, hspotu⟩ := hspot (heq.trans hs)
    obtain ⟨k', v, hv, hspotv⟩ := hspot hs
    have huv : u = v := congrArg Prod.snd (Option.some.inj (hspotu.symm.trans hspotv))
    have hlt := (List.getElem?_eq_some_iff.mp hu).1
    exact Nat.ne_of_lt hij
      ((List.getElem?_inj hlt h.occurrence.nodup).mp (hu.trans (huv ▸ hv.symm)))

/-- **Copying for every component** is copying the target that holds the copies. -/
theorem copyComponents_eq_copyWhole :
    r.copyComponents t m = r.copyWhole (r.splitTarget t m).view (r.splitMapping t m) := by
  obtain ⟨hhost, hcopied⟩ := copied_splitTarget h hr
  refine Prod.ext ?_ (Images.ext_slot? ?_ fun v => Option.ext fun s => ?_)
  · rw [hhost, copyWhole, Arena.ofGraph_eq_host, splitTarget, (t.isListed_parts _).toGraph_view]
  · rw [hcopied.length_eq, copyWhole, length_imagesAt]
  · rw [hcopied.slot_iff, copyWhole, slot?_imagesAt, Option.bind_fun_some,
      imageOf_splitMapping h hr]

/-- **A step for every component** is a step on the target that holds the copies. -/
theorem rewrite_splitTarget (mode : Relabeling) : r.rewrite ⟨true, mode⟩ t m =
    r.rewrite ⟨false, mode⟩ (r.splitTarget t m).view (r.splitMapping t m) := by
  obtain ⟨g, hg⟩ := exists_rewrite hr h ⟨true, mode⟩
  have hcheck := checkOccurrence_eq_ok_iff.mpr (occurrence_splitMapping h hr)
  have hsame : r.copyTarget ⟨false, mode⟩ (r.splitTarget t m).view (r.splitMapping t m) =
      r.copyTarget ⟨true, mode⟩ t m := by
    rw [copyTarget, copyTarget, if_pos rfl, if_neg Bool.false_ne_true,
      copyComponents_eq_copyWhole h hr]
  have hrework := (rewrite_eq_ok_iff.mp hg).2
  rw [← hsame] at hrework
  rw [hg, rewrite_eq_ok_iff.mpr ⟨hcheck, hrework⟩]

/-! ### Nothing is copied twice -/

/-- Where no two components of the left side are mapped into one component of the target, every node
is copied once, and the host is the target. -/
theorem exists_twins_of_apart (hapart : ∀ i j u v : Nat, m[i]? = some u → m[j]? = some v →
      t.Linked u v → (r.sideGraph .left).view.Linked i j) :
    ∃ F, r.Twins (fun v => v) F (r.copyComponents t m).2 (r.splitTarget t m)
      (r.imagesAt m some) t.toGraph := by
  have hc' := (copied_splitTarget h hr).2
  have hc := copied_copyWhole h.occurrence
  have hcopy : ∀ {k u : Nat}, (k, u) ∈ t.spotsOfParts (r.splitParts t m) ↔
      u < t.nodeCount ∧ ((∃ v w, r.imageOf m v = some w ∧ r.copyNumber true v = k ∧ t.Linked w u) ∨
        (k = r.leftComponents.length ∧ ∀ v w, r.imageOf m v = some w → ¬t.Linked w u)) := by
    intro k u
    rw [hc'.mem_iff, CopyHolds, if_pos rfl]
  have hσ : ∀ p ∈ t.spotsOfParts (r.splitParts t m), ∀ q ∈ t.spotsOfParts (r.splitParts t m),
      0 = 0 → t.Linked p.2 q.2 → p.1 = q.1 := by
    rintro ⟨k, u⟩ hp ⟨k', u'⟩ hq - (hlinked : t.Linked u u')
    obtain ⟨-, ⟨v, w, hw, rfl, hwu⟩ | ⟨rfl, hnone⟩⟩ := hcopy.mp hp <;>
      obtain ⟨-, ⟨v', w', hw', rfl, hwu'⟩ | ⟨rfl, hnone'⟩⟩ := hcopy.mp hq
    · obtain ⟨i, hi, hiw⟩ := imageOf_eq_some_iff.mp hw
      obtain ⟨j, hj, hjw⟩ := imageOf_eq_some_iff.mp hw'
      have hleft := hapart i j w w' hiw hjw ((hwu.trans hlinked).trans hwu'.symm)
      exact copyNumber_eq_of_linked true hi hj hleft
    · exact absurd (hwu.trans hlinked) (hnone' v w hw)
    · exact absurd (hwu'.trans hlinked.symm) (hnone v' w' hw')
    · rfl
  have hsurj : ∀ q ∈ (List.range t.nodeCount).map fun u => ((0, u) : Nat × Nat),
      ∃ p ∈ t.spotsOfParts (r.splitParts t m), (0, p.2) = q := by
    intro q hq
    obtain ⟨u, hu, rfl⟩ := List.mem_map.mp hq
    have hlt := List.mem_range.mp hu
    by_cases hlinked : ∃ v w, r.imageOf m v = some w ∧ t.Linked w u
    · obtain ⟨v, w, hw, hwu⟩ := hlinked
      exact ⟨(_, u), hcopy.mpr ⟨hlt, .inl ⟨v, w, hw, rfl, hwu⟩⟩, rfl⟩
    · exact ⟨(_, u), hcopy.mpr ⟨hlt, .inr ⟨rfl, fun v w hw hwu => hlinked ⟨v, w, hw, hwu⟩⟩⟩, rfl⟩
  obtain ⟨F, hF, hspots⟩ := Graph.Spreads.exists_isIso (σ := fun _ => 0) hc'.spreads hc.spreads
    (GraphView.IsIso.refl t) hσ
    (fun p hp => List.mem_map.mpr ⟨p.2, List.mem_range.mpr (hcopy.mp hp).1, rfl⟩) hsurj
  refine ⟨F, automorphism_id r, hF, hc'.placed h.occurrence, hc.placed h.occurrence,
    fun {v s} hs => ?_⟩
  obtain ⟨u, hu, hspot⟩ := hc'.slot_iff.mp hs
  exact hc.slot_iff.mpr ⟨u, hu, hspots hspot⟩

/-- **With and without copies** the results are isomorphic, where nothing is copied twice. -/
theorem isomorphic_of_apart (hapart : ∀ i j u v : Nat, m[i]? = some u → m[j]? = some v →
      t.Linked u v → (r.sideGraph .left).view.Linked i j) {mode : Relabeling} {g g' : Graph}
    (hg : r.rewrite ⟨true, mode⟩ t m = .ok g) (hg' : r.rewrite ⟨false, mode⟩ t m = .ok g') :
    g.Isomorphic g' := by
  have hc' := (copied_splitTarget h hr).2
  have hc := copied_copyWhole h.occurrence
  obtain ⟨F, htwins⟩ := exists_twins_of_apart h hr hapart
  have hrework := (rewrite_eq_ok_iff.mp hg).2
  rw [copyTarget, if_pos rfl, (copied_splitTarget h hr).1] at hrework
  have hrework' := (h.occurrence.rewrite_eq_rework mode).symm.trans hg'
  refine htwins.isomorphic_of_copied hr h h hc' hc (fun e he hrole _ => ?_) hrework hrework'
  refine ⟨fun labels => List.Perm.refl _, ?_⟩
  have hleft : e ∈ r.leftEdges := List.mem_filter.mpr ⟨he, by rw [hrole]; rfl⟩
  obtain ⟨u, v, hu, hv, hlabels⟩ := hc.labelsAmong_leftEdge hr h.occurrence hleft
  obtain ⟨u', v', hu', hv', hlabels'⟩ := hc'.labelsAmong_leftEdge hr h.occurrence hleft
  obtain rfl := Option.some.inj (hu.symm.trans hu')
  obtain rfl := Option.some.inj (hv.symm.trans hv')
  rw [hlabels, hlabels']

end

end Rule

/-- **Steps on copies that are made beforehand.** At a match of the left side of a consistent rule,
a step with a copy for every component of the left side has the same result as a step without copies
on the target that holds the copies, at the mapping that sends every node into its copy. Where no
two components of the left side are mapped into one component of the target, it also has the same
result as a step without copies on the target itself, up to isomorphism. -/
theorem applyRule_split {r : Rule} {mode : Relabeling} {t : GraphView} {m : List Nat}
    (hr : r.isConsistent = true) (hmode : mode.validate = .ok ())
    (hm : r.leftPattern.IsMatch t m) :
    (∃ g, applyRule r ⟨true, mode⟩ t m = .ok g ∧
      applyRule r ⟨false, mode⟩ (r.splitTarget t m).view (r.splitMapping t m) = .ok g) ∧
    ((∀ i j u v : Nat, m[i]? = some u → m[j]? = some v → t.Linked u v →
        (r.sideGraph .left).view.Linked i j) →
      ∃ g g', applyRule r ⟨true, mode⟩ t m = .ok g ∧ applyRule r ⟨false, mode⟩ t m = .ok g' ∧
        g.Isomorphic g') := by
  have happlicable := Rule.applicable_of_isMatch hr hm
  obtain ⟨g, hg⟩ := Rule.exists_rewrite hr happlicable ⟨true, mode⟩
  have hg₁ : applyRule r ⟨true, mode⟩ t m = .ok g := applyRule_eq_ok_iff.mpr ⟨hr, hmode, hg⟩
  refine ⟨⟨g, hg₁, applyRule_eq_ok_iff.mpr ⟨hr, hmode, ?_⟩⟩, fun hapart => ?_⟩
  · rw [← Rule.rewrite_splitTarget happlicable hr]
    exact hg
  · obtain ⟨g', hg'⟩ := Rule.exists_rewrite hr happlicable ⟨false, mode⟩
    exact ⟨g, g', hg₁, applyRule_eq_ok_iff.mpr ⟨hr, hmode, hg'⟩,
      Rule.isomorphic_of_apart happlicable hr hapart hg hg'⟩

/-- The rule that writes new labels on two nodes that are not joined. -/
def Rule.mark : Rule where
  id := some "mark"
  nodes := [⟨.labelChange, "A", some "X"⟩, ⟨.labelChange, "B", some "Y"⟩]
  edges := []
  constraints := []
  directives := []
  wildcard := none

/-- Nodes of which the first two are joined. -/
def Graph.pairAndNodes : Graph where
  labels := ["A", "B", "C", "B"]
  edges := [⟨0, 1, "-"⟩]
  endpoints_lt := by decide

/-- Both nodes of the pair are marked in copies of their own. The first node of the pair and the
last node are in different components, and are marked without a copy as well. -/
theorem applyRule_split_mark : Rule.mark.isConsistent = true ∧
    Rule.mark.leftPattern.IsMatch Graph.pairAndNodes.view [0, 1] ∧
    Rule.mark.splitTarget Graph.pairAndNodes.view [0, 1] =
      ⟨["A", "B", "A", "B", "C", "B"], [⟨0, 1, "-"⟩, ⟨2, 3, "-"⟩], by decide⟩ ∧
    Rule.mark.splitMapping Graph.pairAndNodes.view [0, 1] = [0, 3] ∧
    (∃ g, applyRule .mark ⟨true, .replace⟩ Graph.pairAndNodes.view [0, 1] = .ok g ∧
      applyRule .mark ⟨false, .replace⟩ (Rule.mark.splitTarget Graph.pairAndNodes.view [0, 1]).view
        (Rule.mark.splitMapping Graph.pairAndNodes.view [0, 1]) = .ok g) ∧
    ∃ g g', applyRule .mark ⟨true, .replace⟩ Graph.pairAndNodes.view [0, 3] = .ok g ∧
      applyRule .mark ⟨false, .replace⟩ Graph.pairAndNodes.view [0, 3] = .ok g' ∧
      g.Isomorphic g' := by
  have hr : Rule.mark.isConsistent = true := by decide +kernel
  have hoccurrences : Rule.mark.leftPattern.occurrences none Graph.pairAndNodes.view =
      [[0, 1], [0, 3]] := by decide +kernel
  have hmatch : ∀ m ∈ [[0, 1], [0, 3]],
      Rule.mark.leftPattern.IsMatch Graph.pairAndNodes.view m := by
    intro m hm
    rw [← hoccurrences] at hm
    exact (Pattern.mem_occurrences_iff Rule.mark.inRange_leftPattern).mp hm
  have hm := hmatch [0, 1] (List.mem_cons_self ..)
  refine ⟨hr, hm, by decide +kernel, by decide +kernel, (applyRule_split hr rfl hm).1, ?_⟩
  have hapart : ¬Graph.pairAndNodes.view.Linked 0 3 := by decide +kernel
  refine (applyRule_split hr rfl (hmatch [0, 3] (by decide))).2 fun i j u v hi hj hlinked => ?_
  have hnumber : ∀ {i u : Nat}, ([0, 3] : List Nat)[i]? = some u →
      i = 0 ∧ u = 0 ∨ i = 1 ∧ u = 3 := by
    rintro (_ | _ | i) u ⟨⟩
    · exact .inl ⟨rfl, rfl⟩
    · exact .inr ⟨rfl, rfl⟩
  obtain ⟨rfl, rfl⟩ | ⟨rfl, rfl⟩ := hnumber hi <;> obtain ⟨rfl, rfl⟩ | ⟨rfl, rfl⟩ := hnumber hj
  · exact GraphView.Linked.refl _ 0
  · exact absurd hlinked hapart
  · exact absurd hlinked.symm hapart
  · exact GraphView.Linked.refl _ 1

end GraphGrammar
