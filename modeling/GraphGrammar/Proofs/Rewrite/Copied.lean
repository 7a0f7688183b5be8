import GraphGrammar.Proofs.Rewrite.Applicable
import GraphGrammar.Proofs.Rewrite.ComponentCopies

/-!
# The copies on which a step acts

Before a step the target is copied, as a whole or for every component of the left side. In both
cases the host holds copies of parts of the target, and a rule node has the slot of its image in the
copy on which it acts. Where a rule can be applied, edges of the left side find edges in the host,
so that a step succeeds with either way of copying.

## Main definitions

* `GraphGrammar.Rule.copyNumber`, `GraphGrammar.Rule.CopyHolds` — the copies.
* `GraphGrammar.Rule.Copied` — what copying gives.
* `GraphGrammar.Rule.Slotted` — what copying gives even where the rule cannot be applied.

## Main results

* `GraphGrammar.Rule.exists_copied` — both ways of copying.
* `GraphGrammar.Rule.Copied.placed`, `GraphGrammar.Rule.Copied.fits` — a step succeeds.
-/

namespace GraphGrammar

namespace Rule

variable {r : Rule} {t : GraphView} {mapping : List Nat}

/-- The components of the left side, by the numbers of its nodes there. -/
def leftComponents (r : Rule) : List (List Nat) := (r.sideGraph .left).view.sweptComponents

/-- The number of the copy on which a rule node acts. -/
def copyNumber (r : Rule) (each : Bool) (v : Nat) : Nat :=
  if each then ((r.localNumber? .left v).map (GraphView.classOf r.leftComponents)).getD 0 else 0

/-- Whether a copy holds a node of the target. With one copy for every component, it holds the nodes
that are linked with the images of that component, and the last copy those that are linked with no
image. -/
def CopyHolds (r : Rule) (each : Bool) (t : GraphView) (mapping : List Nat) (k u : Nat) : Prop :=
  if each then
    (∃ v w, r.imageOf mapping v = some w ∧ r.copyNumber each v = k ∧ t.Linked w u) ∨
      (k = r.leftComponents.length ∧ ∀ v w, r.imageOf mapping v = some w → ¬t.Linked w u)
  else k = 0

/-- What copying the target gives: a host of copies and the slots of the rule nodes. -/
structure Copied (r : Rule) (each : Bool) (t : GraphView) (mapping : List Nat) (g : Graph)
    (image : Images) (spots : List (Nat × Nat)) : Prop where
  /-- The host holds nodes of the target in copies. -/
  spreads : g.Spreads t spots
  /-- Every copy holds what it should. -/
  mem_iff : ∀ {k u : Nat}, (k, u) ∈ spots ↔ u < t.nodeCount ∧ r.CopyHolds each t mapping k u
  /-- There is an entry for every rule node. -/
  length_eq : image.length = r.nodes.length
  /-- Rule nodes have the slots of their images. -/
  slot_iff : ∀ {v s : Nat}, image.slot? v = some s ↔
    ∃ u, r.imageOf mapping v = some u ∧ spots[s]? = some (r.copyNumber each v, u)

/-- What copying gives even where the rule cannot be applied: a host of copies, and slots of rule
nodes. A node of the left side may be without a slot, but in its component there is one that has
one. -/
structure Slotted (r : Rule) (each : Bool) (t : GraphView) (mapping : List Nat) (g : Graph)
    (image : Images) (spots : List (Nat × Nat)) : Prop where
  /-- The host holds nodes of the target in copies. -/
  spreads : g.Spreads t spots
  /-- There is an entry for every rule node. -/
  length_eq : image.length = r.nodes.length
  /-- Rule nodes have the slots of their images. -/
  slot_iff : ∀ {v s : Nat}, image.slot? v = some s ↔
    ∃ u, r.imageOf mapping v = some u ∧ spots[s]? = some (r.copyNumber each v, u)
  /-- Every node of the left side is linked there with one that has a slot. -/
  anchored : ∀ {v i : Nat}, (r.sideNodes .left)[i]? = some v → ∃ w j s : Nat,
    (r.sideNodes .left)[j]? = some w ∧ (r.sideGraph .left).view.Linked i j ∧
      image.slot? w = some s

/-! ### Components of the left side -/

/-- Nodes of the left side that are joined there have joined images. -/
theorem Applicable.hasEdge (h : r.Applicable t mapping) (hr : r.isConsistent = true) {i j : Nat}
    (hedge : (r.sideGraph .left).view.hasEdge i j = true) :
    t.hasEdge (mapping.getD i 0) (mapping.getD j 0) = true := by
  have hget : ∀ {i}, i < (r.sideGraph .left).view.nodeCount → ∃ a,
      (r.sideNodes .left)[i]? = some a ∧ r.imageOf mapping a = some (mapping.getD i 0) := by
    intro i hi
    have hi' : i < (r.sideNodes .left).length := (nodeCount_leftPattern r) ▸ hi
    have hlt : i < mapping.length := h.occurrence.length_eq ▸ hi'
    refine ⟨_, List.getElem?_eq_getElem hi', imageOf_eq_some_iff.mpr
      ⟨i, List.getElem?_eq_getElem hi', ?_⟩⟩
    rw [List.getD_eq_getElem?_getD, List.getElem?_eq_getElem hlt, Option.getD_some]
  obtain ⟨hi, hj⟩ := GraphView.lt_of_hasEdge hedge
  obtain ⟨a, ha, hu⟩ := hget hi
  obtain ⟨b, hb, hv⟩ := hget hj
  have hlen := (labelsFit_iff.mp (h.fits hu hv)).1
  rw [← labelsBetween_leftPattern hr ha hb] at hlen
  exact GraphView.hasEdge_of_length_le hlen hedge

/-- Linked nodes of the left side have linked images. -/
theorem Applicable.linked (h : r.Applicable t mapping) (hr : r.isConsistent = true)
    {i j u v : Nat} (hi : mapping[i]? = some u) (hj : mapping[j]? = some v)
    (hlinked : (r.sideGraph .left).view.Linked i j) : t.Linked u v := by
  have himages := hlinked.map (f := fun i => mapping.getD i 0) (h.hasEdge hr)
  simpa only [List.getD_eq_getElem?_getD, hi, hj, Option.getD_some] using himages

theorem separates_leftComponents (r : Rule) : (r.sideGraph .left).view.Separates r.leftComponents
    (List.range (r.sideGraph .left).view.nodeCount) :=
  (r.sideGraph .left).view.separates_sweptComponents

/-- Linked rule nodes act on the same copy. -/
theorem copyNumber_eq_of_linked (each : Bool) {a b i j : Nat}
    (hi : (r.sideNodes .left)[i]? = some a) (hj : (r.sideNodes .left)[j]? = some b)
    (hlinked : (r.sideGraph .left).view.Linked i j) :
    r.copyNumber each a = r.copyNumber each b := by
  have hlt : ∀ {i v : Nat}, (r.sideNodes .left)[i]? = some v →
      i < (r.sideGraph .left).view.nodeCount := by
    intro i v hi
    have := (List.getElem?_eq_some_iff.mp hi).1
    rwa [← nodeCount_leftPattern] at this
  have hclass := ((r.separates_leftComponents).classOf_eq_iff (hlt hi) (hlt hj)).mpr hlinked
  rw [copyNumber, copyNumber, localNumber?_eq_some_iff.mpr hi, localNumber?_eq_some_iff.mpr hj,
    Option.map_some, Option.map_some, hclass]

/-- Joined rule nodes act on the same copy. -/
theorem copyNumber_eq_of_leftLabels (hr : r.isConsistent = true) (each : Bool) {a b i j : Nat}
    (hi : (r.sideNodes .left)[i]? = some a) (hj : (r.sideNodes .left)[j]? = some b)
    (hlabels : r.leftLabels a b ≠ []) : r.copyNumber each a = r.copyNumber each b := by
  rw [← labelsBetween_leftPattern hr hi hj, Ne, GraphView.labelsBetween_eq_nil_iff,
    Bool.not_eq_false] at hlabels
  exact copyNumber_eq_of_linked each hi hj (GraphView.Linked.of_hasEdge hlabels)

/-! ### Both ways of copying -/

theorem copied_copyWhole (h : r.Occurrence t mapping) : r.Copied false t mapping t.toGraph
    (r.imagesAt mapping some) ((List.range t.nodeCount).map (0, ·)) where
  spreads := t.spreads_toGraph
  mem_iff {k u} := by
    rw [CopyHolds, if_neg Bool.false_ne_true, List.mem_map]
    simp only [List.mem_range, Prod.mk.injEq]
    constructor
    · rintro ⟨_, hu, rfl, rfl⟩
      exact ⟨hu, rfl⟩
    · rintro ⟨hu, rfl⟩
      exact ⟨u, hu, rfl, rfl⟩
  length_eq := length_imagesAt r mapping some
  slot_iff {v s} := by
    rw [slot?_imagesAt, Option.bind_fun_some]
    have hzero : r.copyNumber false v = 0 := rfl
    rw [hzero]
    simp only [GraphView.getElem?_wholeSpots, Prod.mk.injEq, true_and]
    constructor
    · exact fun hv => ⟨s, hv, h.imageOf_lt hv, rfl⟩
    · rintro ⟨_, hv, -, rfl⟩
      exact hv

/-- **A step without copies** for the components acts on the target itself. -/
theorem Occurrence.rewrite_eq_rework (h : r.Occurrence t mapping) (mode : Relabeling) :
    r.rewrite ⟨false, mode⟩ t mapping =
      r.rework mode (r.imagesAt mapping some) (Arena.host t.toGraph) := by
  rw [rewrite, checkOccurrence_eq_ok_iff.mpr h, copyTarget_of_whole rfl]
  rfl

/-- A node of the left side is in the component to which its copy belongs. -/
theorem exists_component {v i : Nat} (hi : (r.sideNodes .left)[i]? = some v) :
    ∃ c, r.leftComponents[r.copyNumber true v]? = some c ∧ i ∈ c := by
  have hlt : i < (r.sideGraph .left).view.nodeCount := by
    have := (List.getElem?_eq_some_iff.mp hi).1
    rwa [← nodeCount_leftPattern] at this
  rw [copyNumber, if_pos rfl, localNumber?_eq_some_iff.mpr hi]
  exact r.separates_leftComponents.exists_mem hlt

theorem copyNumber_of_mem {v i k : Nat} {c : List Nat} (hi : (r.sideNodes .left)[i]? = some v)
    (hc : r.leftComponents[k]? = some c) (hmem : i ∈ c) : r.copyNumber true v = k := by
  rw [copyNumber, if_pos rfl, localNumber?_eq_some_iff.mpr hi]
  exact r.separates_leftComponents.classOf_eq_of_mem hc hmem

/-- The first node of a component decides where the component was found. -/
theorem Occurrence.exists_head (h : r.Occurrence t mapping) {c : List Nat}
    (hc : c ∈ r.leftComponents) : ∃ i v u : Nat, i ∈ c ∧ (r.sideNodes .left)[i]? = some v ∧
      mapping[i]? = some u ∧ ∀ ids : List Nat, hitOf ids mapping c = ids[u]? := by
  obtain ⟨i, rest, rfl⟩ := List.exists_cons_of_ne_nil (r.separates_leftComponents.ne_nil c hc)
  have hilt := r.separates_leftComponents.lt_of_mem hc (List.mem_cons_self ..)
  have hi : i < (r.sideNodes .left).length := nodeCount_leftPattern r ▸ hilt
  have himage : i < mapping.length := h.length_eq ▸ hi
  refine ⟨i, _, _, List.mem_cons_self .., List.getElem?_eq_getElem hi,
    List.getElem?_eq_getElem himage, fun ids => ?_⟩
  rw [hitOf, List.head?_cons, Option.bind_some, List.getElem?_eq_getElem himage, Option.bind_some]

/-- A component of the left side was found where the images of its nodes are. -/
theorem Applicable.hitOf_eq_iff (h : r.Applicable t mapping) (hr : r.isConsistent = true)
    {k u : Nat} {c : List Nat} (hc : r.leftComponents[k]? = some c) (hu : u < t.nodeCount) :
    t.componentNumbers.1[u]? = hitOf t.componentNumbers.1 mapping c ↔
      ∃ v w, r.imageOf mapping v = some w ∧ r.copyNumber true v = k ∧ t.Linked w u := by
  have hmemc := List.mem_of_getElem? hc
  obtain ⟨i, v, w, hic, hi, hget, hhit⟩ := h.occurrence.exists_head hmemc
  have hwlt := h.occurrence.lt_nodeCount _ (List.mem_of_getElem? hget)
  rw [hhit, GraphView.componentNumbers_eq_iff hu hwlt]
  constructor
  · intro hlinked
    exact ⟨v, w, imageOf_eq_some_iff.mpr ⟨i, hi, hget⟩, copyNumber_of_mem hi hc hic, hlinked.symm⟩
  · rintro ⟨v, w, hw, rfl, hlinked⟩
    obtain ⟨j, hj, hjw⟩ := imageOf_eq_some_iff.mp hw
    obtain ⟨c', hc', hmem⟩ := r.exists_component hj
    rw [hc, Option.some.injEq] at hc'
    have hclass := r.separates_leftComponents.linked _ hmemc j (hc' ▸ hmem) i hic
    exact hlinked.symm.trans (h.linked hr hjw hget hclass)

/-- The slot of a node of the left side, by its number there. -/
theorem CopiedFor.lookup_eq_some_iff {ids : List Nat} {s : ComponentCopies} {g : Graph}
    {spots : List (Nat × Nat)} (h : CopiedFor t ids mapping r.leftComponents s g spots)
    {v i x : Nat} (hi : (r.sideNodes .left)[i]? = some v) : s.images.lookup i = some x ↔
      ∃ u, mapping[i]? = some u ∧ spots[x]? = some (r.copyNumber true v, u) := by
  have hmem : ∀ {j x : Nat}, (j, x) ∈ s.images → ∃ u, mapping[j]? = some u ∧
      spots[x]? = some (GraphView.classOf r.leftComponents j, u) := by
    intro j x hjx
    obtain ⟨k, c, u, hc, hj, hu, hx⟩ := h.images_iff.mp hjx
    exact ⟨u, hu, r.separates_leftComponents.classOf_eq_of_mem hc hj ▸ hx⟩
  rw [lookup_eq_some_iff_mem]
  · constructor
    · intro hix
      obtain ⟨u, hu, hx⟩ := hmem hix
      rw [copyNumber, if_pos rfl, localNumber?_eq_some_iff.mpr hi]
      exact ⟨u, hu, hx⟩
    · rintro ⟨u, hu, hx⟩
      obtain ⟨c, hc, hic⟩ := r.exists_component hi
      exact h.images_iff.mpr ⟨_, c, u, hc, hic, hu, hx⟩
  · intro j x x' hjx hjx'
    obtain ⟨u, hu, hx⟩ := hmem hjx
    obtain ⟨u', hu', hx'⟩ := hmem hjx'
    obtain rfl := Option.some.inj (hu.symm.trans hu')
    exact (List.getElem?_inj (List.getElem?_eq_some_iff.mp hx).1 h.spreads.nodup).mp
      (hx.trans hx'.symm)

/-- The slots of the rule nodes. The last copy holds none of them. -/
theorem CopiedFor.slot?_eq_some_iff {ids : List Nat} {s : ComponentCopies} {g : Graph}
    {spots : List (Nat × Nat)} (h : CopiedFor t ids mapping r.leftComponents s g spots)
    (keep : Nat → Bool) {v x : Nat} :
    Images.slot? ((List.range r.nodes.length).map fun v => do
      s.images.lookup (← r.localNumber? .left v)) v = some x ↔
      ∃ u, r.imageOf mapping v = some u ∧
        (spots ++ t.spotsOf r.leftComponents.length keep)[x]? = some (r.copyNumber true v, u) := by
  simp only [Option.bind_eq_bind, slot?_map_localNumber, Option.bind_eq_some_iff,
    localNumber?_eq_some_iff, imageOf_eq_some_iff]
  constructor
  · rintro ⟨i, hi, hx⟩
    obtain ⟨u, hu, hx⟩ := (h.lookup_eq_some_iff hi).mp hx
    exact ⟨u, ⟨i, hi, hu⟩, Graph.Spreads.getElem?_append_spotsOf.mpr (.inl hx)⟩
  · rintro ⟨u, ⟨i, hi, hu⟩, hx⟩
    refine ⟨i, hi, (h.lookup_eq_some_iff hi).mpr ⟨u, hu, ?_⟩⟩
    refine (Graph.Spreads.getElem?_append_spotsOf.mp hx).resolve_right fun hlast => ?_
    obtain ⟨c, hc, -⟩ := r.exists_component hi
    exact absurd (List.getElem?_eq_some_iff.mp hc).1 (hlast.1 ▸ Nat.lt_irrefl _)

/-- The parts of the target that are copied with a copy for every component of the left side. -/
def copiedParts (r : Rule) (t : GraphView) (mapping : List Nat) : List (Nat → Bool) :=
  foundParts t.componentNumbers.1 mapping r.leftComponents

theorem copiedFor_leftComponents (r : Rule) (t : GraphView) (mapping : List Nat) :
    CopiedFor t t.componentNumbers.1 mapping r.leftComponents
      (r.leftComponents.foldl (copyComponent t t.componentNumbers.1 mapping) ⟨Arena.empty, [], []⟩)
      (t.parts (r.leftComponents.map (isFound t.componentNumbers.1 mapping)))
      (t.spotsOfParts (r.leftComponents.map (isFound t.componentNumbers.1 mapping))) :=
  copiedFor_foldl t mapping (by simp [GraphView.componentNumbers]) r.leftComponents

/-- **The host** holds the parts one after the other. -/
theorem copyComponents_fst (r : Rule) (t : GraphView) (mapping : List Nat) :
    (r.copyComponents t mapping).1 = Arena.host (t.parts (r.copiedParts t mapping)) := by
  rw [copiedParts, foundParts, GraphView.parts_append_singleton]
  exact (r.copiedFor_leftComponents t mapping).extend_rest (by simp [GraphView.componentNumbers])

theorem spotsOfParts_copiedParts (r : Rule) (t : GraphView) (mapping : List Nat) :
    t.spotsOfParts (r.copiedParts t mapping) =
      t.spotsOfParts (r.leftComponents.map (isFound t.componentNumbers.1 mapping)) ++
        t.spotsOf r.leftComponents.length fun u =>
          r.leftComponents.all fun c => !isFound t.componentNumbers.1 mapping c u := by
  rw [copiedParts, foundParts, GraphView.spotsOfParts_append_singleton, List.length_map]

/-- What the copies hold. -/
theorem mem_spotsOfParts_copiedParts {k u : Nat} :
    (k, u) ∈ t.spotsOfParts (r.copiedParts t mapping) ↔
    u < t.nodeCount ∧ ((∃ c, r.leftComponents[k]? = some c ∧
      t.componentNumbers.1[u]? = hitOf t.componentNumbers.1 mapping c) ∨
      (k = r.leftComponents.length ∧ ∀ c ∈ r.leftComponents,
        t.componentNumbers.1[u]? ≠ hitOf t.componentNumbers.1 mapping c)) := by
  have hmem := (r.copiedFor_leftComponents t mapping).mem_iff (k := k) (u := u)
  rw [spotsOfParts_copiedParts, List.mem_append, hmem, GraphView.mem_spotsOf, List.all_eq_true]
  simp only [isFound, Bool.not_eq_true', decide_eq_false_iff_not]
  constructor
  · rintro (⟨hu, hhit⟩ | ⟨hk, hu, hrest⟩)
    · exact ⟨hu, .inl hhit⟩
    · exact ⟨hu, .inr ⟨hk, hrest⟩⟩
  · rintro ⟨hu, hhit | ⟨hk, hrest⟩⟩
    · exact .inl ⟨hu, hhit⟩
    · exact .inr ⟨hk, hu, hrest⟩

/-- A copy for every component of the left side, wherever its nodes are mapped. -/
theorem slotted_copyComponents (h : r.Occurrence t mapping) :
    r.Slotted true t mapping (t.parts (r.copiedParts t mapping)) (r.copyComponents t mapping).2
      (t.spotsOfParts (r.copiedParts t mapping)) := by
  have hslot : ∀ {v x : Nat}, (r.copyComponents t mapping).2.slot? v = some x ↔
      ∃ u, r.imageOf mapping v = some u ∧
        (t.spotsOfParts (r.copiedParts t mapping))[x]? = some (r.copyNumber true v, u) := by
    intro v x
    rw [spotsOfParts_copiedParts]
    exact (r.copiedFor_leftComponents t mapping).slot?_eq_some_iff _
  refine ⟨t.spreads_parts _, by simp [copyComponents], hslot, fun {v i} hi => ?_⟩
  -- The first node of a component is in the component of the target that is copied for it.
  obtain ⟨c, hc, hic⟩ := r.exists_component hi
  have hmemc := List.mem_of_getElem? hc
  obtain ⟨j, w, u, hjc, hj, hu, hhit⟩ := h.exists_head hmemc
  obtain ⟨x, hx⟩ := List.mem_iff_getElem?.mp (mem_spotsOfParts_copiedParts.mpr
    ⟨h.lt_nodeCount _ (List.mem_of_getElem? hu), .inl ⟨c, hc, (hhit _).symm⟩⟩)
  refine ⟨w, j, x, hj, r.separates_leftComponents.linked _ hmemc i hic j hjc,
    hslot.mpr ⟨u, imageOf_eq_some_iff.mpr ⟨j, hj, hu⟩, ?_⟩⟩
  rw [copyNumber_of_mem hj hc hjc]
  exact hx

theorem copied_copyComponents (hr : r.isConsistent = true) (h : r.Applicable t mapping) :
    r.Copied true t mapping (t.parts (r.copiedParts t mapping)) (r.copyComponents t mapping).2
      (t.spotsOfParts (r.copiedParts t mapping)) := by
  have hslotted := slotted_copyComponents h.occurrence
  refine ⟨hslotted.spreads, fun {k u} => ?_, hslotted.length_eq, hslotted.slot_iff⟩
  rw [mem_spotsOfParts_copiedParts, CopyHolds, if_pos rfl]
  refine and_congr_right fun hu => or_congr ⟨?_, ?_⟩ (and_congr_right fun _ => ⟨?_, ?_⟩)
  · rintro ⟨c, hc, hid⟩
    exact (h.hitOf_eq_iff hr hc hu).mp hid
  · rintro ⟨v, w, hw, rfl, hlinked⟩
    obtain ⟨i, hi, -⟩ := imageOf_eq_some_iff.mp hw
    obtain ⟨c, hc, -⟩ := r.exists_component hi
    exact ⟨c, hc, (h.hitOf_eq_iff hr hc hu).mpr ⟨v, w, hw, rfl, hlinked⟩⟩
  · intro hnone v w hw hlinked
    obtain ⟨i, hi, -⟩ := imageOf_eq_some_iff.mp hw
    obtain ⟨c, hc, -⟩ := r.exists_component hi
    exact hnone c (List.mem_of_getElem? hc) ((h.hitOf_eq_iff hr hc hu).mpr ⟨v, w, hw, rfl, hlinked⟩)
  · intro hall c hc hhit
    obtain ⟨k, hk⟩ := List.mem_iff_getElem?.mp hc
    obtain ⟨v, w, hw, -, hlinked⟩ := (h.hitOf_eq_iff hr hk hu).mp hhit
    exact hall v w hw hlinked

/-- **Copying the target** gives copies of parts of it, as a whole or for every component. -/
theorem exists_copied (hr : r.isConsistent = true) (h : r.Applicable t mapping)
    (config : RewriteConfig) : ∃ g spots, (r.copyTarget config t mapping).1 = Arena.host g ∧
      r.Copied config.addEachComponent t mapping g (r.copyTarget config t mapping).2 spots := by
  rw [copyTarget]
  cases config.addEachComponent with
  | true => exact ⟨_, _, r.copyComponents_fst t mapping, copied_copyComponents hr h⟩
  | false => exact ⟨_, _, Arena.ofGraph_eq_host t, copied_copyWhole h.occurrence⟩

/-! ### A step succeeds -/

/-- Slots are those of distinct nodes of the left side. -/
theorem Slotted.placed_of_exists_slot {each : Bool} {g : Graph} {image : Images}
    {spots : List (Nat × Nat)} (h : r.Slotted each t mapping g image spots)
    (ho : r.Occurrence t mapping)
    (hexists : ∀ {v u : Nat}, r.imageOf mapping v = some u → ∃ s, image.slot? v = some s) :
    r.Placed image g.nodeCount where
  length_eq := h.length_eq
  exists_slot {v role} hv hrole := by
    obtain ⟨u, -, hu⟩ := ho.exists_imageOf hv hrole
    obtain ⟨s, hs⟩ := hexists hu
    obtain ⟨_, -, hspot⟩ := h.slot_iff.mp hs
    refine ⟨s, ?_, hs⟩
    rw [h.spreads.nodeCount_eq]
    exact (List.getElem?_eq_some_iff.mp hspot).1
  slot_none {v} hv := by
    refine Option.eq_none_iff_forall_ne_some.mpr fun s hs => ?_
    obtain ⟨u, hu, -⟩ := h.slot_iff.mp hs
    obtain ⟨role, hrole, hleft⟩ := onLeft_of_imageOf hu
    cases hv.symm.trans hrole
    exact absurd hleft Bool.false_ne_true
  inj {u v s} hu hv := by
    obtain ⟨x, hx, hsx⟩ := h.slot_iff.mp hu
    obtain ⟨y, hy, hsy⟩ := h.slot_iff.mp hv
    have heq := congrArg Prod.snd (Option.some.inj (hsx.symm.trans hsy))
    exact ho.imageOf_inj hx ((show x = y from heq) ▸ hy)

namespace Copied

variable {each : Bool} {g : Graph} {image : Images} {spots : List (Nat × Nat)}
  (h : r.Copied each t mapping g image spots)

include h

/-- The copy on which a rule node acts holds its image. -/
theorem mem_of_imageOf (ho : r.Occurrence t mapping) {v u : Nat}
    (hu : r.imageOf mapping v = some u) : (r.copyNumber each v, u) ∈ spots := by
  refine h.mem_iff.mpr ⟨ho.imageOf_lt hu, ?_⟩
  rw [CopyHolds]
  cases each with
  | true => exact .inl ⟨v, u, hu, rfl, GraphView.Linked.refl t u⟩
  | false => rfl

/-- Every node of the left side has a slot. -/
theorem exists_slot (ho : r.Occurrence t mapping) {v u : Nat} (hu : r.imageOf mapping v = some u) :
    ∃ s, image.slot? v = some s := by
  obtain ⟨s, hs⟩ := List.mem_iff_getElem?.mp (h.mem_of_imageOf ho hu)
  exact ⟨s, h.slot_iff.mpr ⟨u, hu, hs⟩⟩

theorem slotted (ho : r.Occurrence t mapping) : r.Slotted each t mapping g image spots where
  spreads := h.spreads
  length_eq := h.length_eq
  slot_iff := h.slot_iff
  anchored {v i} hi := by
    obtain ⟨role, hrole, hleft⟩ := mem_sideNodes.mp (List.mem_of_getElem? hi)
    obtain ⟨u, -, hu⟩ := ho.exists_imageOf hrole hleft
    obtain ⟨s, hs⟩ := h.exists_slot ho hu
    exact ⟨v, i, s, hi, GraphView.Linked.refl _ i, hs⟩

/-- **Every node of the left side** has a slot of its own. -/
theorem placed (ho : r.Occurrence t mapping) : r.Placed image g.nodeCount :=
  (h.slotted ho).placed_of_exists_slot ho fun hu => h.exists_slot ho hu

/-- Between the slots of two rule nodes there are the edges between their images. In different
copies there are none, and then there are none on the left side either. -/
theorem labelsAmong_slots (hr : r.isConsistent = true) {a b x y : Nat}
    (hx : image.slot? a = some x) (hy : image.slot? b = some y) :
    ∃ u v, r.imageOf mapping a = some u ∧ r.imageOf mapping b = some v ∧
      ((labelsAmong g.edges x y).Perm (t.labelsBetween u v) ∨
        labelsAmong g.edges x y = [] ∧ r.leftLabels a b = []) := by
  obtain ⟨u, hu, hxu⟩ := h.slot_iff.mp hx
  obtain ⟨v, hv, hyv⟩ := h.slot_iff.mp hy
  refine ⟨u, v, hu, hv, ?_⟩
  rw [h.spreads.labels_eq hxu hyv]
  split
  · exact .inl (t.labelsAmong_edgeList u v)
  · next hne =>
    obtain ⟨i, hi, -⟩ := imageOf_eq_some_iff.mp hu
    obtain ⟨j, hj, -⟩ := imageOf_eq_some_iff.mp hv
    refine .inr ⟨rfl, ?_⟩
    by_contra hlabels
    exact hne (copyNumber_eq_of_leftLabels hr each hi hj hlabels)

/-- Between the slots of the ends of an edge of the left side there are the labels of the target, in
the same order. -/
theorem labelsAmong_leftEdge (hr : r.isConsistent = true) (ho : r.Occurrence t mapping)
    {e : RuleEdge} (he : e ∈ r.leftEdges) : ∃ u v, r.imageOf mapping e.source = some u ∧
      r.imageOf mapping e.target = some v ∧
      labelsAmong g.edges (image.slot e.source) (image.slot e.target) =
        labelsAmong t.edgeList u v := by
  obtain ⟨i, j, hi, hj, -⟩ := exists_sideEdge hr he
  have hlabels : r.leftLabels e.source e.target ≠ [] :=
    List.ne_nil_of_mem (List.mem_map_of_mem (List.mem_filter.mpr ⟨he, decide_eq_true rfl⟩))
  obtain ⟨⟨hs, -⟩, ht, -⟩ := (h.placed ho).slot?_of_mem_leftEdges hr he
  obtain ⟨u, hu, hspotu⟩ := h.slot_iff.mp hs
  obtain ⟨v, hv, hspotv⟩ := h.slot_iff.mp ht
  refine ⟨u, v, hu, hv, ?_⟩
  rw [h.spreads.labels_eq hspotu hspotv, if_pos (copyNumber_eq_of_leftLabels hr each hi hj hlabels)]

/-- **Edges of the left side** find edges between their slots. -/
theorem fits (hr : r.isConsistent = true) (ha : r.Applicable t mapping) {a b x y : Nat}
    (hx : image.slot? a = some x) (hy : image.slot? b = some y) :
    labelsFit r.wildcard (r.leftLabels a b) (labelsAmong g.edges x y) = true := by
  obtain ⟨u, v, hu, hv, hperm | ⟨-, hnil⟩⟩ := h.labelsAmong_slots hr hx hy
  · rw [labelsFit_congr (List.Perm.refl _) hperm]
    exact ha.fits hu hv
  · rw [hnil]
    rfl

end Copied

/-- **A step succeeds** wherever the rule can be applied. -/
theorem exists_rewrite (hr : r.isConsistent = true) (h : r.Applicable t mapping)
    (config : RewriteConfig) : ∃ result, r.rewrite config t mapping = .ok result := by
  obtain ⟨g, spots, hhost, hcopied⟩ := exists_copied hr h config
  obtain ⟨-, result, -, hresult⟩ := (hcopied.placed h.occurrence).exists_rework hr
    config.relabeling fun hx hy => hcopied.fits hr h hx hy
  exact ⟨result, rewrite_eq_ok_iff.mpr
    ⟨checkOccurrence_eq_ok_iff.mpr h.occurrence, hhost ▸ hresult⟩⟩

end Rule

end GraphGrammar
