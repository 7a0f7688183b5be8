import GraphGrammar.Proofs.Rewrite.Copied
import GraphGrammar.Proofs.Rewrite.Invariance

/-!
# Steps at corresponding mappings

Two mappings of a left side, in isomorphic targets, correspond when the isomorphism sends the images
of the one to those of the other, after an automorphism of the rule. The components of the left side
are then permuted, and with them the copies of the target on which the step acts. Hence the hosts
correspond, and so do the results.

## Main definitions

* `GraphGrammar.Rule.Corresponding` — mappings that correspond.

## Main results

* `GraphGrammar.Rule.Automorphism.copyNumber_eq_iff` — automorphisms permute the components.
* `GraphGrammar.Rule.Corresponding.exists_twins` — the hosts correspond.
* `GraphGrammar.Rule.Corresponding.isomorphic` — the results are isomorphic.
-/

namespace GraphGrammar

namespace Rule

variable {r : Rule} {φ : Nat → Nat}

/-! ### Automorphisms and components -/

namespace Automorphism

variable (h : r.Automorphism φ)

include h

theorem mem_sideNodes_iff {v : Nat} : φ v ∈ r.sideNodes .left ↔ v ∈ r.sideNodes .left := by
  rw [mem_sideNodes, mem_sideNodes, h.roleOf_eq]

theorem leftLabels_perm (a b : Nat) : (r.leftLabels (φ a) (φ b)).Perm (r.leftLabels a b) := by
  let between : Sym2 Nat × EdgeRole × String → Bool := fun e =>
    e.2.1.onLeft && decide (e.1 = s(φ a, φ b))
  have hleft : ∀ ψ : Nat → Nat, (((r.edges.map (ruleBond ψ)).filter between).map fun e => e.2.2) =
      (r.leftEdges.filter fun e => s(ψ e.source, ψ e.target) = s(φ a, φ b)).map (·.label) := by
    intro ψ
    rw [List.filter_map, List.map_map, leftEdges, List.filter_filter]
    refine congrArg (List.map _) (List.filter_congr fun e _ => ?_)
    exact Bool.and_comm ..
  have hperm := (h.edges_perm.filter between).map fun e => e.2.2
  rw [hleft, hleft] at hperm
  refine hperm.symm.trans (List.Perm.of_eq ?_)
  rw [leftLabels]
  refine congrArg (List.map _) (List.filter_congr fun e _ => ?_)
  have hiff : ∀ {u v : Nat}, φ u = φ v ↔ u = v := ⟨fun heq => h.inj heq, fun heq => heq ▸ rfl⟩
  rw [decide_eq_decide, Sym2.eq_iff, Sym2.eq_iff, hiff, hiff, hiff, hiff]

/-- The number on the left side of the node to which a node of the left side is sent. -/
theorem exists_localNumber {i v : Nat} (hi : (r.sideNodes .left)[i]? = some v) :
    ∃ j : Nat, (r.sideNodes .left)[j]? = some (φ v) :=
  List.mem_iff_getElem?.mp (h.mem_sideNodes_iff.mpr (List.mem_of_getElem? hi))

/-- An automorphism of a rule is one of its left side. -/
theorem exists_isIso (hr : r.isConsistent = true) : ∃ f : Nat → Nat,
    GraphView.IsIso f (r.sideGraph .left).view (r.sideGraph .left).view ∧
      ∀ {i v : Nat}, (r.sideNodes .left)[i]? = some v →
        (r.sideNodes .left)[f i]? = some (φ v) := by
  let f : Nat → Nat := fun i =>
    (((r.sideNodes .left)[i]?).bind fun v => r.localNumber? .left (φ v)).getD 0
  have hf : ∀ {i v : Nat}, (r.sideNodes .left)[i]? = some v →
      (r.sideNodes .left)[f i]? = some (φ v) := by
    intro i v hi
    obtain ⟨j, hj⟩ := h.exists_localNumber hi
    have hfi : f i = j := by
      simp only [f, hi, Option.bind_some, localNumber?_eq_some_iff.mpr hj, Option.getD_some]
    rw [hfi, hj]
  have hcount : (r.sideGraph .left).view.nodeCount = (r.sideNodes .left).length :=
    nodeCount_leftPattern r
  have hget : ∀ {i}, i < (r.sideGraph .left).view.nodeCount →
      ∃ v, (r.sideNodes .left)[i]? = some v := fun hi =>
    ⟨_, List.getElem?_eq_getElem (hcount ▸ hi)⟩
  refine ⟨f, ⟨rfl, fun {i} hi => ?_, fun {i j} hi hj heq => ?_, fun {i} hi => ?_,
    fun {i j} hi hj => ?_⟩, hf⟩
  · obtain ⟨v, hv⟩ := hget hi
    rw [hcount]
    exact (List.getElem?_eq_some_iff.mp (hf hv)).1
  · obtain ⟨v, hv⟩ := hget hi
    obtain ⟨w, hw⟩ := hget hj
    have hvw := Option.some.inj ((hf hv).symm.trans (heq ▸ hf hw))
    obtain rfl := h.inj hvw
    exact (List.getElem?_inj (List.getElem?_eq_some_iff.mp hv).1 (nodup_sideNodes r .left)).mp
      (hv.trans hw.symm)
  · obtain ⟨v, hv⟩ := hget hi
    have hlabel : ∀ {i v : Nat}, (r.sideNodes .left)[i]? = some v →
        (r.sideGraph .left).view.label i = (r.nodes[v]?).elim "" Side.left.label := by
      intro i v hi
      have hlabels : (r.sideGraph .left).labels =
          (r.sideNodes .left).map fun v => (r.nodes[v]?).elim "" Side.left.label := rfl
      rw [Graph.view_label, hlabels, List.getD_eq_getElem?_getD, List.getElem?_map, hi]
      rfl
    rw [hlabel (hf hv), hlabel hv, h.node_eq]
  · obtain ⟨a, ha⟩ := hget hi
    obtain ⟨b, hb⟩ := hget hj
    have hlabels := labelsBetween_leftPattern hr ha hb
    have hlabels' := labelsBetween_leftPattern hr (hf ha) (hf hb)
    rw [leftPattern] at hlabels hlabels'
    rw [hlabels, hlabels']
    exact (h.leftLabels_perm a b).symm

/-- **Automorphisms permute the components** of the left side. -/
theorem copyNumber_eq_iff (hr : r.isConsistent = true) (each : Bool) {a b : Nat}
    (ha : a ∈ r.sideNodes .left) (hb : b ∈ r.sideNodes .left) :
    r.copyNumber each (φ a) = r.copyNumber each (φ b) ↔
      r.copyNumber each a = r.copyNumber each b := by
  cases each with
  | false => exact Iff.rfl
  | true =>
    obtain ⟨i, hi⟩ := List.mem_iff_getElem?.mp ha
    obtain ⟨j, hj⟩ := List.mem_iff_getElem?.mp hb
    obtain ⟨f, hf, hsend⟩ := h.exists_isIso hr
    have hlt : ∀ {i v : Nat}, (r.sideNodes .left)[i]? = some v →
        i < (r.sideGraph .left).view.nodeCount := by
      intro i v hi
      have := (List.getElem?_eq_some_iff.mp hi).1
      rwa [← nodeCount_leftPattern] at this
    have hnumber : ∀ {i j a b : Nat}, (r.sideNodes .left)[i]? = some a →
        (r.sideNodes .left)[j]? = some b → (r.copyNumber true a = r.copyNumber true b ↔
          (r.sideGraph .left).view.Linked i j) := by
      intro i j a b hi hj
      rw [copyNumber, copyNumber, localNumber?_eq_some_iff.mpr hi, localNumber?_eq_some_iff.mpr hj]
      exact r.separates_leftComponents.classOf_eq_iff (hlt hi) (hlt hj)
    rw [hnumber hi hj, hnumber (hsend hi) (hsend hj), hf.linked_iff (hlt hi) (hlt hj)]

/-- What an automorphism does to the copies. -/
theorem exists_copyMap (hr : r.isConsistent = true) (each : Bool) : ∃ σ : Nat → Nat,
    (∀ v ∈ r.sideNodes .left, σ (r.copyNumber each v) = r.copyNumber each (φ v)) ∧
      ∀ k, (∀ v ∈ r.sideNodes .left, r.copyNumber each v ≠ k) → σ k = k := by
  have hchoice : ∀ k, ∃ k', (∀ v ∈ r.sideNodes .left, r.copyNumber each v = k →
      k' = r.copyNumber each (φ v)) ∧
      ((∀ v ∈ r.sideNodes .left, r.copyNumber each v ≠ k) → k' = k) := by
    intro k
    by_cases hk : ∃ v ∈ r.sideNodes .left, r.copyNumber each v = k
    · obtain ⟨v, hv, rfl⟩ := hk
      refine ⟨r.copyNumber each (φ v), fun w hw heq => ?_, fun hnone => absurd rfl (hnone v hv)⟩
      exact (h.copyNumber_eq_iff hr each hv hw).mpr heq.symm
    · exact ⟨k, fun v hv heq => absurd ⟨v, hv, heq⟩ hk, fun _ => rfl⟩
  choose σ hσ using hchoice
  exact ⟨σ, fun v hv => (hσ _).1 v hv rfl, fun k => (hσ k).2⟩

end Automorphism

/-- **The results in hosts that correspond** are isomorphic, whichever way they were copied. -/
theorem Twins.isomorphic_of_copied {F : Nat → Nat} {image' image : Images} {g' g : Graph}
    (h : r.Twins φ F image' g' image g) (hr : r.isConsistent = true) {each' each : Bool}
    {t' t : GraphView} {m' m : List Nat} {spots' spots : List (Nat × Nat)}
    (ha' : r.Applicable t' m') (ha : r.Applicable t m)
    (hc' : r.Copied each' t' m' g' image' spots') (hc : r.Copied each t m g image spots)
    (hwild : ∀ e ∈ r.edges, e.role = .leftOnly → r.wildcard = some e.label →
      (∀ labels, (r.takes e.source e.target labels).Perm
        (r.takes (φ e.source) (φ e.target) labels)) ∧
      labelsAmong g.edges (image.slot (φ e.source)) (image.slot (φ e.target)) =
        labelsAmong g'.edges (image'.slot e.source) (image'.slot e.target))
    {mode : Relabeling} {result' result : Graph}
    (hresult' : r.rework mode image' (Arena.host g') = .ok result')
    (hresult : r.rework mode image (Arena.host g) = .ok result) : result'.Isomorphic result := by
  obtain ⟨choices', hchoices'⟩ := h.placed'.exists_choices hr fun hx hy => hc'.fits hr ha' hx hy
  obtain ⟨choices, hchoices⟩ := h.placed.exists_choices hr fun hx hy => hc.fits hr ha hx hy
  obtain ⟨number, hiso, -⟩ := h.exists_isIso (h.untaken_perm hr hchoices' hchoices hwild) hr
    hchoices' hchoices hresult' hresult
  exact ⟨number, hiso⟩

/-! ### Corresponding mappings -/

/-- Mappings of the left side in isomorphic targets of which the isomorphism sends one to the other,
after an automorphism of the rule. -/
structure Corresponding (r : Rule) (φ f : Nat → Nat) (t' : GraphView) (m' : List Nat)
    (t : GraphView) (m : List Nat) : Prop where
  /-- The rule nodes are permuted. -/
  automorphism : r.Automorphism φ
  /-- The targets are isomorphic. -/
  isIso : GraphView.IsIso f t' t
  /-- The rule can be applied at the first mapping. -/
  applicable' : r.Applicable t' m'
  /-- The rule can be applied at the second mapping. -/
  applicable : r.Applicable t m
  /-- Images are sent to images. -/
  imageOf_eq : ∀ {v u : Nat}, r.imageOf m' v = some u → r.imageOf m (φ v) = some (f u)

theorem imageOf_map (r : Rule) (m : List Nat) (f : Nat → Nat) (v : Nat) :
    r.imageOf (m.map f) v = (r.imageOf m v).map f := by
  refine Option.ext fun w => ?_
  simp only [Option.map_eq_some_iff, imageOf_eq_some_iff, List.getElem?_map]
  constructor
  · rintro ⟨i, hi, u, hu, rfl⟩
    exact ⟨u, ⟨i, hi, hu⟩, rfl⟩
  · rintro ⟨u, ⟨i, hi, hu⟩, rfl⟩
    exact ⟨i, hi, u, hu, rfl⟩

/-- A rule can be applied at the mapping that an isomorphism makes of one at which it can. -/
theorem Applicable.map {f : Nat → Nat} {t' t : GraphView} {m : List Nat}
    (h : r.Applicable t' m) (hf : GraphView.IsIso f t' t) : r.Applicable t (m.map f) where
  occurrence := by
    refine ⟨(List.length_map _).trans h.occurrence.length_eq, ?_, ?_⟩
    · rw [List.forall_mem_map]
      exact fun u hu => hf.lt (h.occurrence.lt_nodeCount u hu)
    · exact h.occurrence.nodup.map_on fun u hu v hv =>
        hf.inj (h.occurrence.lt_nodeCount u hu) (h.occurrence.lt_nodeCount v hv)
  fits {a b u v} ha hb := by
    rw [imageOf_map, Option.map_eq_some_iff] at ha hb
    obtain ⟨u, ha, rfl⟩ := ha
    obtain ⟨v, hb, rfl⟩ := hb
    have hlabels := hf.labels_perm (h.occurrence.imageOf_lt ha) (h.occurrence.imageOf_lt hb)
    rw [← labelsFit_congr (List.Perm.refl _) hlabels]
    exact h.fits ha hb

/-- A mapping corresponds to the one that an isomorphism makes of it. -/
theorem Applicable.corresponding {f : Nat → Nat} {t' t : GraphView} {m : List Nat}
    (h : r.Applicable t' m) (hf : GraphView.IsIso f t' t) :
    r.Corresponding (fun v => v) f t' m t (m.map f) where
  automorphism := automorphism_id r
  isIso := hf
  applicable' := h
  applicable := h.map hf
  imageOf_eq hv := by rw [imageOf_map, hv, Option.map_some]

theorem mem_sideNodes_of_imageOf {m : List Nat} {v u : Nat} (h : r.imageOf m v = some u) :
    v ∈ r.sideNodes .left := by
  obtain ⟨i, hi, -⟩ := imageOf_eq_some_iff.mp h
  exact List.mem_of_getElem? hi

theorem copyNumber_lt {v : Nat} (hv : v ∈ r.sideNodes .left) :
    r.copyNumber true v < r.leftComponents.length := by
  obtain ⟨i, hi⟩ := List.mem_iff_getElem?.mp hv
  obtain ⟨c, hc, -⟩ := r.exists_component hi
  exact (List.getElem?_eq_some_iff.mp hc).1

namespace Corresponding

variable {f : Nat → Nat} {t' t : GraphView} {m' m : List Nat}
  (h : r.Corresponding φ f t' m' t m)

include h

/-- Every image is sent from an image. -/
theorem exists_imageOf {w u : Nat} (hw : r.imageOf m w = some u) :
    ∃ v u', φ v = w ∧ r.imageOf m' v = some u' ∧ f u' = u := by
  obtain ⟨v, rfl⟩ := h.automorphism.surj w
  obtain ⟨role, hrole, hleft⟩ := onLeft_of_imageOf hw
  rw [h.automorphism.roleOf_eq] at hrole
  obtain ⟨u', -, hu'⟩ := h.applicable'.occurrence.exists_imageOf hrole hleft
  exact ⟨v, u', rfl, hu', Option.some.inj ((h.imageOf_eq hu').symm.trans hw)⟩

section

variable (hr : r.isConsistent = true) {each : Bool} {σ : Nat → Nat}
  (hσ : ∀ v ∈ r.sideNodes .left, σ (r.copyNumber each v) = r.copyNumber each (φ v))
  (hfix : ∀ k, (∀ v ∈ r.sideNodes .left, r.copyNumber each v ≠ k) → σ k = k)

include hσ hfix

omit h hσ in
/-- The last copy stays the last one. -/
theorem copyMap_last (heach : each = true) :
    σ r.leftComponents.length = r.leftComponents.length := by
  subst heach
  exact hfix _ fun v hv => Nat.ne_of_lt (copyNumber_lt hv)

omit h hσ in
theorem copyMap_zero (heach : each = false)
    (hσ : ∀ v ∈ r.sideNodes .left, σ (r.copyNumber each v) = r.copyNumber each (φ v)) :
    σ 0 = 0 := by
  subst heach
  by_cases hany : ∃ v, v ∈ r.sideNodes .left
  · obtain ⟨v, hv⟩ := hany
    exact hσ v hv
  · exact hfix 0 fun v hv => absurd ⟨v, hv⟩ hany

/-- Corresponding copies hold corresponding nodes. -/
theorem copyHolds_map {k u : Nat} (hu : u < t'.nodeCount) (hk : r.CopyHolds each t' m' k u) :
    r.CopyHolds each t m (σ k) (f u) := by
  rw [CopyHolds] at hk ⊢
  cases each with
  | false =>
    rw [if_neg Bool.false_ne_true] at hk ⊢
    rw [hk, copyMap_zero hfix rfl hσ]
  | true =>
    rw [if_pos rfl] at hk ⊢
    rcases hk with ⟨v, w, hw, rfl, hlinked⟩ | ⟨rfl, hnone⟩
    · exact .inl ⟨φ v, f w, h.imageOf_eq hw, (hσ v (mem_sideNodes_of_imageOf hw)).symm,
        h.isIso.linked hlinked⟩
    · refine .inr ⟨copyMap_last hfix rfl, fun w u' hw hlinked => ?_⟩
      obtain ⟨v, u'', -, hv, rfl⟩ := h.exists_imageOf hw
      refine hnone v u'' hv ?_
      exact (h.isIso.linked_iff (h.applicable'.occurrence.imageOf_lt hv) hu).mp hlinked

/-- Every copy corresponds to one. -/
theorem exists_copyHolds {k u : Nat} (hu : u < t'.nodeCount)
    (hk : r.CopyHolds each t m k (f u)) : ∃ k', σ k' = k ∧ r.CopyHolds each t' m' k' u := by
  simp only [CopyHolds] at hk ⊢
  cases each with
  | false =>
    rw [if_neg Bool.false_ne_true] at hk
    exact ⟨0, by rw [hk, copyMap_zero hfix rfl hσ], by rw [if_neg Bool.false_ne_true]⟩
  | true =>
    simp only [if_true] at hk ⊢
    rcases hk with ⟨w, u', hw, rfl, hlinked⟩ | ⟨rfl, hnone⟩
    · obtain ⟨v, u'', rfl, hv, rfl⟩ := h.exists_imageOf hw
      have hlt := h.applicable'.occurrence.imageOf_lt hv
      exact ⟨_, hσ v (mem_sideNodes_of_imageOf hv), .inl ⟨v, u'', hv, rfl,
        (h.isIso.linked_iff hlt hu).mp hlinked⟩⟩
    · exact ⟨_, copyMap_last hfix rfl, .inr ⟨rfl, fun v u' hv hlinked =>
        hnone _ _ (h.imageOf_eq hv) (h.isIso.linked hlinked)⟩⟩

/-- Distinct copies correspond to distinct copies. -/
theorem copyMap_inj (hr : r.isConsistent = true) {k u k' u' : Nat}
    (hk : r.CopyHolds each t' m' k u) (hk' : r.CopyHolds each t' m' k' u') (heq : σ k = σ k') :
    k = k' := by
  rw [CopyHolds] at hk hk'
  cases each with
  | false =>
    rw [if_neg Bool.false_ne_true] at hk hk'
    exact hk.trans hk'.symm
  | true =>
    rw [if_pos rfl] at hk hk'
    have hne : ∀ v ∈ r.sideNodes .left, σ (r.copyNumber true v) ≠ r.leftComponents.length := by
      intro v hv
      rw [hσ v hv]
      exact Nat.ne_of_lt (copyNumber_lt (h.automorphism.mem_sideNodes_iff.mpr hv))
    rcases hk with ⟨v, w, hw, rfl, -⟩ | ⟨rfl, -⟩ <;>
      rcases hk' with ⟨v', w', hw', rfl, -⟩ | ⟨rfl, -⟩
    · have hv := mem_sideNodes_of_imageOf hw
      have hv' := mem_sideNodes_of_imageOf hw'
      rw [hσ v hv, hσ v' hv'] at heq
      exact (h.automorphism.copyNumber_eq_iff hr true hv hv').mp heq
    · rw [copyMap_last hfix rfl] at heq
      exact absurd heq (hne v (mem_sideNodes_of_imageOf hw))
    · rw [copyMap_last hfix rfl] at heq
      exact absurd heq.symm (hne v' (mem_sideNodes_of_imageOf hw'))
    · rfl

end

/-- **The hosts of corresponding mappings** correspond. -/
theorem exists_twins (hr : r.isConsistent = true) {each : Bool} {g' g : Graph}
    {image' image : Images}
    {spots' spots : List (Nat × Nat)} (hc' : r.Copied each t' m' g' image' spots')
    (hc : r.Copied each t m g image spots) : ∃ F, r.Twins φ F image' g' image g := by
  obtain ⟨σ, hσ, hfix⟩ := h.automorphism.exists_copyMap hr each
  have hmem : ∀ p ∈ spots', (σ p.1, f p.2) ∈ spots := by
    intro p hp
    obtain ⟨hu, hk⟩ := hc'.mem_iff.mp (show (p.1, p.2) ∈ spots' from hp)
    exact hc.mem_iff.mpr ⟨h.isIso.lt hu, h.copyHolds_map hσ hfix hu hk⟩
  have hsurj : ∀ q ∈ spots, ∃ p ∈ spots', (σ p.1, f p.2) = q := by
    intro q hq
    obtain ⟨hw, hk⟩ := hc.mem_iff.mp (show (q.1, q.2) ∈ spots from hq)
    obtain ⟨u, hu, hfu⟩ := h.isIso.exists_preimage hw
    rw [← hfu] at hk
    obtain ⟨k, hσk, hk⟩ := h.exists_copyHolds hσ hfix hu hk
    exact ⟨(k, u), hc'.mem_iff.mpr ⟨hu, hk⟩, Prod.ext hσk hfu⟩
  obtain ⟨F, hF, hspots⟩ := Graph.Spreads.exists_isIso hc'.spreads hc.spreads h.isIso
    (fun p hp q hq heq _ =>
      h.copyMap_inj hσ hfix hr (hc'.mem_iff.mp hp).2 (hc'.mem_iff.mp hq).2 heq)
    hmem hsurj
  refine ⟨F, h.automorphism, hF, hc'.placed h.applicable'.occurrence,
    hc.placed h.applicable.occurrence, fun {v s} hs => ?_⟩
  obtain ⟨u, hu, hspot⟩ := hc'.slot_iff.mp hs
  refine hc.slot_iff.mpr ⟨f u, h.imageOf_eq hu, ?_⟩
  rw [hspots hspot, hσ v (mem_sideNodes_of_imageOf hu)]

/-- Where the targets have the same labels in the same order, so have the hosts. -/
theorem labelsAmong_hosts (hr : r.isConsistent = true) {each : Bool} {F : Nat → Nat} {g' g : Graph}
    {image' image : Images} {spots' spots : List (Nat × Nat)}
    (hc' : r.Copied each t' m' g' image' spots') (hc : r.Copied each t m g image spots)
    (htwins : r.Twins φ F image' g' image g) {e : RuleEdge} (he : e ∈ r.leftEdges)
    (hlabels : ∀ u v : Nat, r.imageOf m' e.source = some u → r.imageOf m' e.target = some v →
      labelsAmong t.edgeList (f u) (f v) = labelsAmong t'.edgeList u v) :
    labelsAmong g.edges (image.slot (φ e.source)) (image.slot (φ e.target)) =
      labelsAmong g'.edges (image'.slot e.source) (image'.slot e.target) := by
  obtain ⟨⟨hs, -⟩, ht, -⟩ := htwins.slot_of_mem_leftEdges hr he
  obtain ⟨u, hu, hspotu⟩ := hc'.slot_iff.mp hs
  obtain ⟨v, hv, hspotv⟩ := hc'.slot_iff.mp ht
  have hφ : ∀ {w x s : Nat}, image'.slot? w = some s → r.imageOf m' w = some x →
      spots[image.slot (φ w)]? = some (r.copyNumber each (φ w), f x) := by
    intro w x s hs hx
    have hslot := htwins.slot_eq hs
    rw [Images.slot_of_slot? hslot]
    obtain ⟨y, hy, hspot⟩ := hc.slot_iff.mp hslot
    obtain rfl := Option.some.inj ((h.imageOf_eq hx).symm.trans hy)
    exact hspot
  rw [hc.spreads.labels_eq (hφ hs hu) (hφ ht hv), hc'.spreads.labels_eq hspotu hspotv]
  simp only [h.automorphism.copyNumber_eq_iff hr _ (mem_sideNodes_of_imageOf hu)
    (mem_sideNodes_of_imageOf hv), hlabels u v hu hv]

/-- **The results of steps at corresponding mappings** are isomorphic, if no left-only edge takes
what is left over, or what is left over there is the same. -/
theorem isomorphic (hr : r.isConsistent = true) (config : RewriteConfig)
    (hwild : ∀ e ∈ r.edges, e.role = .leftOnly → r.wildcard = some e.label →
      (∀ labels, (r.takes e.source e.target labels).Perm
        (r.takes (φ e.source) (φ e.target) labels)) ∧
      ∀ u v : Nat, r.imageOf m' e.source = some u → r.imageOf m' e.target = some v →
        labelsAmong t.edgeList (f u) (f v) = labelsAmong t'.edgeList u v)
    {result' result : Graph} (hresult' : r.rewrite config t' m' = .ok result')
    (hresult : r.rewrite config t m = .ok result) : result'.Isomorphic result := by
  obtain ⟨g', spots', hhost', hc'⟩ := exists_copied hr h.applicable' config
  obtain ⟨g, spots, hhost, hc⟩ := exists_copied hr h.applicable config
  obtain ⟨F, htwins⟩ := h.exists_twins hr hc' hc
  have hrework' := (rewrite_eq_ok_iff.mp hresult').2
  have hrework := (rewrite_eq_ok_iff.mp hresult).2
  rw [hhost'] at hrework'
  rw [hhost] at hrework
  refine htwins.isomorphic_of_copied hr h.applicable' h.applicable hc' hc ?_ hrework' hrework
  intro e he hrole hlabel
  obtain ⟨htakes, hlabels⟩ := hwild e he hrole hlabel
  have hleft : e ∈ r.leftEdges := List.mem_filter.mpr ⟨he, by rw [hrole]; rfl⟩
  exact ⟨htakes, h.labelsAmong_hosts hr hc' hc htwins hleft hlabels⟩

end Corresponding

end Rule

end GraphGrammar
