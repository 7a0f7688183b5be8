import GraphGrammar.Proofs.Graph.Bonds
import GraphGrammar.Proofs.Rewrite.Result

/-!
# The copies of loose edges, edge by edge

Loose edges are noted node by node, as the left-only nodes are removed one after the other. Which
copies there are in the end is said edge by edge: an edge that has lost exactly one endpoint is
drawn again once for every directive of that endpoint which admits it.

## Main definitions

* `GraphGrammar.Rule.copiesAt`, `GraphGrammar.Rule.slotCopies` — the copies of one edge.

## Main results

* `GraphGrammar.Rule.bonds_copies_looseEdges` — the two descriptions agree up to order.
-/

namespace GraphGrammar

namespace Rule

variable {r : Rule} {image : Images} {g : Graph}

/-- The copies of an edge that loses the endpoint `gone` and keeps the endpoint `kept`. -/
def copiesAt (r : Rule) (image : Images) (g : Graph) (gone kept : Nat) (label : String) :
    List Bond :=
  (r.directives.filter fun d => image.slot? d.source == some gone &&
    d.admits (r.ruleNodeAt image kept) label).map
    fun d => (s((r.finalImage image g).slot d.pasteTarget, kept), label)

/-- The copies of an edge, if it loses exactly one endpoint. -/
def slotCopies (r : Rule) (image : Images) (g : Graph) (e : Edge) : List Bond :=
  match r.stays image e.source, r.stays image e.target with
  | false, true => r.copiesAt image g e.source e.target e.label
  | true, false => r.copiesAt image g e.target e.source e.label
  | _, _ => []

theorem ruleNodeAt_finalImage (r : Rule) (image : Images) (g : Graph) (s : Nat) :
    r.ruleNodeAt (r.finalImage image g) s = r.ruleNodeAt image s := by
  rw [ruleNodeAt, ruleNodeAt]
  congr 1
  funext v
  rw [← Images.slot?, ← Images.slot?]
  cases hv : r.roleOf v with
  | none => rfl
  | some role =>
    cases hrole : role.survives with
    | false => simp [hrole]
    | true => rw [slot?_finalImage_of_survives hv hrole]

/-- The copies of a loose edge. -/
theorem bonds_copies (h : r.Placed image g.nodeCount) {d : LooseEdge} {gone : Nat}
    (hgone : image.slot? d.source = some gone) :
    (r.copies (r.finalImage image g) d).map Edge.bond =
      r.copiesAt image g gone d.survivor d.label := by
  have hfilter : r.admitting (r.finalImage image g) d =
      r.directives.filter fun directive => image.slot? directive.source == some gone &&
        directive.admits (r.ruleNodeAt image d.survivor) d.label := by
    rw [admitting, directivesOf, List.filter_filter, ruleNodeAt_finalImage]
    refine List.filter_congr fun directive _ => ?_
    have hsource : (directive.source == d.source) =
        (image.slot? directive.source == some gone) := by
      rw [Bool.eq_iff_iff, beq_iff_eq, beq_iff_eq]
      exact ⟨fun heq => heq ▸ hgone, fun hslot => h.inj hslot hgone⟩
    rw [hsource, Bool.and_comm]
  rw [copies, copiesAt, hfilter, List.map_map]
  rfl

theorem stays_fst_of_mem_deletedPairs {d : Nat × Nat} (hd : d ∈ r.deletedPairs image) :
    r.stays image d.1 = false := by
  rw [stays, Bool.not_eq_false']
  exact List.any_eq_true.mpr ⟨d, hd, beq_self_eq_true _⟩

theorem exists_deletedPairs_of_stays {s : Nat} (hs : r.stays image s = false) :
    ∃ d ∈ r.deletedPairs image, d.1 = s := by
  rw [stays, Bool.not_eq_false', List.any_eq_true] at hs
  obtain ⟨d, hd, heq⟩ := hs
  exact ⟨d, hd, eq_of_beq heq⟩

/-- The copies of the edges around one removed slot, edge by edge. -/
theorem bonds_copies_looseAt (h : r.Placed image g.nodeCount) {d : Nat × Nat}
    (hd : d ∈ r.deletedPairs image) (edges : List Edge) :
    ((looseAt (r.deletedPairs image) edges d).flatMap
        (r.copies (r.finalImage image g))).map Edge.bond =
      edges.flatMap fun e => if e.touches d.1 && r.stays image (e.other d.1) then
        r.copiesAt image g d.1 (e.other d.1) e.label else [] := by
  rw [List.map_flatMap, looseAt, List.filterMap_filter, List.filterMap_eq_flatMap_toList,
    List.flatMap_assoc]
  refine List.flatMap_congr fun e _ => ?_
  cases htouch : e.touches d.1 with
  | false => simp
  | true =>
    rw [if_pos rfl, looseEdge?, Bool.true_and, stays]
    split
    · next hany => rw [hany, if_neg (by decide), Option.toList_none, List.flatMap_nil]
    · next hany =>
      rw [Bool.eq_false_iff.mpr hany, if_pos (by decide), Option.toList_some,
        List.flatMap_singleton]
      exact bonds_copies h (d := ⟨d.2, e.other d.1, e.label⟩) (h.slot?_of_mem_deletedPairs hd).1

/-- **The copies of all loose edges**, edge by edge. -/
theorem bonds_copies_looseEdges (h : r.Placed image g.nodeCount) (edges : List Edge) :
    (((r.looseEdges image edges).flatMap (r.copies (r.finalImage image g))).map Edge.bond).Perm
      (edges.flatMap (r.slotCopies image g)) := by
  have hinj : ∀ d ∈ r.deletedPairs image, ∀ d' ∈ r.deletedPairs image, d.1 = d'.1 → d = d' :=
    fun d hd d' hd' => List.inj_on_of_nodup_map h.nodup_map_fst_deletedPairs hd hd'
  -- an edge around a removed slot whose other endpoint stays is noted at this slot and at no other
  have hother : ∀ (e : Edge) {s s' : Nat}, r.stays image s = true →
      s = e.source ∧ s' = e.target ∨ s = e.target ∧ s' = e.source →
      ∀ d ∈ r.deletedPairs image, d.1 ≠ s' → e.touches d.1 = false := by
    intro e s s' hs hends d hd hne
    have hfalse := stays_fst_of_mem_deletedPairs hd
    have hne' : d.1 ≠ s := fun heq => by simp [heq, hs] at hfalse
    simp only [Edge.touches, Bool.or_eq_false_iff, beq_eq_false_iff_ne]
    omega
  rw [looseEdges, List.flatMap_assoc, List.map_flatMap,
    List.flatMap_congr fun d hd => bonds_copies_looseAt h hd edges]
  refine (flatMap_flatMap_perm _ _ _).trans (List.Perm.of_eq ?_)
  refine List.flatMap_congr fun e _ => ?_
  rw [slotCopies]
  cases hs : r.stays image e.source <;> cases ht : r.stays image e.target
  · refine List.flatMap_eq_nil_iff.mpr fun d _ => ?_
    have hgone : r.stays image (e.other d.1) = false := by
      rw [Edge.other]
      split
      · exact ht
      · exact hs
    simp [hgone]
  · obtain ⟨d, hd, hds⟩ := exists_deletedPairs_of_stays hs
    rw [flatMap_eq_apply (nodup_deletedPairs _ _) hd]
    · simp [Edge.touches, Edge.other, hds, ht]
    · intro d' hd' hne
      have htouch := hother e ht (.inr ⟨rfl, rfl⟩) d' hd' fun heq =>
        hne (hinj d' hd' d hd (heq.trans hds.symm))
      simp [htouch]
  · obtain ⟨d, hd, hdt⟩ := exists_deletedPairs_of_stays ht
    have hne : e.source ≠ e.target := fun heq => by simp [heq, ht] at hs
    rw [flatMap_eq_apply (nodup_deletedPairs _ _) hd]
    · simp [Edge.touches, Edge.other, hdt, hne, hs]
    · intro d' hd' hne'
      have htouch := hother e hs (.inl ⟨rfl, rfl⟩) d' hd' fun heq =>
        hne' (hinj d' hd' d hd (heq.trans hdt.symm))
      simp [htouch]
  · refine List.flatMap_eq_nil_iff.mpr fun d hd => ?_
    have hfalse := stays_fst_of_mem_deletedPairs hd
    have htouch : e.touches d.1 = false := by
      simp only [Edge.touches, Bool.or_eq_false_iff, beq_eq_false_iff_ne]
      exact ⟨fun heq => by simp [← heq, hs] at hfalse, fun heq => by simp [← heq, ht] at hfalse⟩
    simp [htouch]

end Rule

end GraphGrammar
