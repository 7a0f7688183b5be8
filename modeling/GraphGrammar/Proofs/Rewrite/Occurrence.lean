import GraphGrammar.Proofs.Rewrite.Choices
import GraphGrammar.Proofs.Rule.Side

/-!
# Mappings of the left side

A mapping that passes the checks sends the nodes of the left side to distinct nodes of the target.
In a copy of the whole target these are also the slots of the nodes.

## Main definitions

* `GraphGrammar.Rule.imageOf` — where a mapping sends a rule node.
* `GraphGrammar.Rule.Occurrence` — what the checks establish.

## Main results

* `GraphGrammar.Rule.checkOccurrence_eq_ok_iff` — the checks.
* `GraphGrammar.Rule.Occurrence.placed` — the slots in a copy of the whole target.
-/

namespace GraphGrammar

namespace Rule

variable {r : Rule} {t : GraphView} {mapping : List Nat}

/-- A mapping of the left side to distinct nodes of the target. -/
structure Occurrence (r : Rule) (t : GraphView) (mapping : List Nat) : Prop where
  /-- Every node of the left side is mapped. -/
  length_eq : mapping.length = (r.sideNodes .left).length
  /-- Images are nodes of the target. -/
  lt_nodeCount : ∀ u ∈ mapping, u < t.nodeCount
  /-- Distinct nodes have distinct images. -/
  nodup : mapping.Nodup

/-! ### The checks -/

theorem checkImages_eq_ok_iff {seen : List Nat} {pairs : List (Nat × Nat)} :
    r.checkImages t seen pairs = .ok () ↔ (∀ u ∈ pairs.map Prod.snd, u < t.nodeCount) ∧
      (pairs.map Prod.snd).Nodup ∧ ∀ u ∈ pairs.map Prod.snd, u ∉ seen := by
  induction pairs generalizing seen with
  | nil => simp [checkImages]
  | cons pair pairs ih =>
    obtain ⟨v, image⟩ := pair
    rw [checkImages, List.map_cons, List.nodup_cons, List.forall_mem_cons, List.forall_mem_cons]
    by_cases hlt : t.nodeCount ≤ image
    · simp only [hlt, if_true, reduceCtorEq, false_iff]
      exact fun h => absurd h.1.1 (Nat.not_lt.mpr hlt)
    · by_cases hseen : image ∈ seen
      · simp [hlt, hseen]
      · have hcontains : ¬seen.contains image = true := by simpa using hseen
        rw [if_neg hlt, if_neg hcontains, ih]
        constructor
        · rintro ⟨hle, hnodup, hnotin⟩
          refine ⟨⟨Nat.lt_of_not_le hlt, hle⟩, ⟨fun hmem => ?_, hnodup⟩, hseen, fun u hu => ?_⟩
          · exact hnotin image hmem (List.mem_cons_self ..)
          · exact fun h => hnotin u hu (List.mem_cons_of_mem _ h)
        · rintro ⟨⟨-, hle⟩, ⟨himage, hnodup⟩, -, hnotin⟩
          refine ⟨hle, hnodup, fun u hu h => ?_⟩
          rcases List.mem_cons.mp h with rfl | h
          · exact himage hu
          · exact hnotin u hu h

/-- **The checks** pass exactly the mappings of the left side to distinct nodes. -/
theorem checkOccurrence_eq_ok_iff :
    r.checkOccurrence t mapping = .ok () ↔ r.Occurrence t mapping := by
  have hsnd : (mapping.zipIdx.map Prod.swap).map Prod.snd = mapping := by
    rw [List.map_map]
    exact List.zipIdx_map_fst 0 mapping
  rw [checkOccurrence]
  split
  · next hlen =>
    rw [checkImages_eq_ok_iff, hsnd]
    constructor
    · intro h
      exact ⟨hlen, h.1, h.2.1⟩
    · intro h
      exact ⟨h.lt_nodeCount, h.nodup, fun _ _ => List.not_mem_nil⟩
  · next hlen =>
    constructor
    · intro h
      cases h
    · intro h
      exact absurd h.length_eq hlen

/-! ### Images of rule nodes -/

/-- The node of the target to which a mapping of the left side sends a rule node. -/
def imageOf (r : Rule) (mapping : List Nat) (v : Nat) : Option Nat := do
  mapping[← r.localNumber? .left v]?

theorem imageOf_eq_some_iff {v u : Nat} :
    r.imageOf mapping v = some u ↔
      ∃ i : Nat, (r.sideNodes .left)[i]? = some v ∧ mapping[i]? = some u := by
  rw [imageOf, Option.bind_eq_bind, Option.bind_eq_some_iff]
  simp only [localNumber?_eq_some_iff]

theorem nodeCount_leftPattern (r : Rule) :
    r.leftPattern.graph.nodeCount = (r.sideNodes .left).length := by
  rw [leftPattern, Graph.view_nodeCount, sideGraph]
  exact List.length_map _

theorem onLeft_of_imageOf {v u : Nat} (h : r.imageOf mapping v = some u) :
    ∃ role, r.roleOf v = some role ∧ role.onLeft = true := by
  obtain ⟨i, hi, -⟩ := imageOf_eq_some_iff.mp h
  exact mem_sideNodes.mp (List.mem_of_getElem? hi)

theorem length_imagesAt (r : Rule) (mapping : List Nat) (slotOf : Nat → Option Nat) :
    (r.imagesAt mapping slotOf).length = r.nodes.length := by
  rw [imagesAt, List.length_map, List.length_range]

/-- Slots that are given by the numbers of the nodes on the left side. -/
theorem slot?_map_localNumber (r : Rule) (slotOf : Nat → Option Nat) (v : Nat) :
    Images.slot? ((List.range r.nodes.length).map fun v => (r.localNumber? .left v).bind slotOf) v =
      (r.localNumber? .left v).bind slotOf := by
  rw [Images.slot?, List.getElem?_map]
  rcases Nat.lt_or_ge v r.nodes.length with hv | hv
  · rw [List.getElem?_range hv, Option.map_some, Option.join_some]
  · rw [List.getElem?_eq_none (by simpa using hv)]
    refine (Option.bind_eq_none_iff.mpr fun i hi => ?_).symm
    have hmem := List.mem_of_getElem? (localNumber?_eq_some_iff.mp hi)
    exact absurd (List.mem_range.mp (List.mem_of_mem_filter hmem)) (Nat.not_lt.mpr hv)

theorem slot?_imagesAt (r : Rule) (mapping : List Nat) (slotOf : Nat → Option Nat) (v : Nat) :
    (r.imagesAt mapping slotOf).slot? v = (r.imageOf mapping v).bind slotOf := by
  rw [imageOf, Option.bind_eq_bind, Option.bind_assoc]
  exact r.slot?_map_localNumber (fun i => (mapping[i]?).bind slotOf) v

namespace Occurrence

variable (h : r.Occurrence t mapping)

include h

theorem exists_imageOf {v : Nat} {role : NodeRole} (hv : r.roleOf v = some role)
    (hrole : role.onLeft = true) : ∃ u < t.nodeCount, r.imageOf mapping v = some u := by
  obtain ⟨i, hi⟩ := List.mem_iff_getElem?.mp (mem_sideNodes (s := .left).mpr ⟨role, hv, hrole⟩)
  have hlt : i < mapping.length := by
    rw [h.length_eq]
    exact (List.getElem?_eq_some_iff.mp hi).1
  exact ⟨mapping[i], h.lt_nodeCount _ (List.getElem_mem hlt),
    imageOf_eq_some_iff.mpr ⟨i, hi, List.getElem?_eq_getElem hlt⟩⟩

theorem imageOf_lt {v u : Nat} (hv : r.imageOf mapping v = some u) : u < t.nodeCount := by
  obtain ⟨i, -, hi⟩ := imageOf_eq_some_iff.mp hv
  exact h.lt_nodeCount u (List.mem_of_getElem? hi)

theorem imageOf_inj {v v' u : Nat} (hv : r.imageOf mapping v = some u)
    (hv' : r.imageOf mapping v' = some u) : v = v' := by
  obtain ⟨i, hi, hu⟩ := imageOf_eq_some_iff.mp hv
  obtain ⟨i', hi', hu'⟩ := imageOf_eq_some_iff.mp hv'
  have hlt := (List.getElem?_eq_some_iff.mp hu).1
  obtain rfl := (List.getElem?_inj hlt h.nodup).mp (hu.trans hu'.symm)
  exact Option.some.inj (hi.symm.trans hi')

/-- **In a copy of the whole target** every node of the left side has its image as slot. -/
theorem placed : r.Placed (r.imagesAt mapping some) t.nodeCount where
  length_eq := length_imagesAt r mapping some
  exists_slot hv hrole := by
    obtain ⟨u, hu, himage⟩ := h.exists_imageOf hv hrole
    exact ⟨u, hu, by rw [slot?_imagesAt, himage]; rfl⟩
  slot_none hv := by
    rw [slot?_imagesAt, Option.bind_eq_none_iff]
    intro u hu
    obtain ⟨role, hrole, hleft⟩ := onLeft_of_imageOf hu
    cases hv.symm.trans hrole
    exact absurd hleft Bool.false_ne_true
  inj hu hv := by
    rw [slot?_imagesAt, Option.bind_fun_some] at hu hv
    exact h.imageOf_inj hu hv

end Occurrence

end Rule

end GraphGrammar
