import GraphGrammar.Proofs.Arena.Slots
import GraphGrammar.Proofs.Loops
import GraphGrammar.Proofs.Rewrite.Greedy
import GraphGrammar.Proofs.Rule.Consistent
import GraphGrammar.Rewrite.Step

/-!
# Which edges a step takes

A step gives every edge of the left side an edge of the target, pair of slots by pair of slots, and
removes those that were given to left-only edges. What is given to whom is described without the
arena: for every pair of slots, the edges of the left side between them are served in turn from the
edges of the target between them.

## Main definitions

* `GraphGrammar.Rule.Placed` — every node of the left side has a slot of its own.
* `GraphGrammar.Rule.choices` — the edges of the left side with the slots given to them.
* `GraphGrammar.eraseSlots` — slots that are emptied.

## Main results

* `GraphGrammar.Rule.deleteEdges_of_choices_eq_some`, `deleteEdges_of_choices_eq_none` — the phase.
* `GraphGrammar.Rule.choices_spec` — what is given fits.
-/

namespace GraphGrammar

/-! ### Emptied slots -/

/-- The slots of edges with some of them emptied. -/
def eraseSlots (ids : List Nat) (edges : List (Option Edge)) : List (Option Edge) :=
  edges.mapIdx fun i e => if i ∈ ids then none else e

theorem getElem?_eraseSlots (ids : List Nat) (edges : List (Option Edge)) (i : Nat) :
    (eraseSlots ids edges)[i]? = (edges[i]?).map fun e => if i ∈ ids then none else e := by
  rw [eraseSlots, List.getElem?_mapIdx]

theorem getElem?_eraseSlots_of_notMem {ids : List Nat} {i : Nat} (h : i ∉ ids)
    (edges : List (Option Edge)) : (eraseSlots ids edges)[i]? = edges[i]? := by
  rw [getElem?_eraseSlots]
  simp [h]

theorem eraseSlots_nil (edges : List (Option Edge)) : eraseSlots [] edges = edges := by
  refine List.ext_getElem? fun i => ?_
  rw [getElem?_eraseSlots_of_notMem List.not_mem_nil]

theorem eraseSlots_eraseSlots (ids ids' : List Nat) (edges : List (Option Edge)) :
    eraseSlots ids (eraseSlots ids' edges) = eraseSlots (ids' ++ ids) edges := by
  refine List.ext_getElem? fun i => ?_
  rw [getElem?_eraseSlots, getElem?_eraseSlots, getElem?_eraseSlots, Option.map_map]
  refine congrArg (Option.map · _) (funext fun e => ?_)
  by_cases h : i ∈ ids <;> by_cases h' : i ∈ ids' <;> simp [h, h']

theorem set_none_eq_eraseSlots (edges : List (Option Edge)) (i : Nat) :
    edges.set i none = eraseSlots [i] edges := by
  refine List.ext_getElem? fun j => ?_
  rw [getElem?_eraseSlots, List.getElem?_set]
  by_cases h : i = j
  · subst h
    by_cases hlt : i < edges.length <;> simp [hlt]
  · simp [h, Ne.symm h]

/-! ### Slots of rule nodes -/

namespace Images

/-- The slot of a rule node, if it has one. -/
def slot? (image : Images) (v : Nat) : Option Nat := (image[v]?).join

/-- The slot of a rule node, which without one has no meaning. -/
def slot (image : Images) (v : Nat) : Nat := (image.slot? v).getD 0

theorem slot_of_slot? {image : Images} {v s : Nat} (h : image.slot? v = some s) :
    image.slot v = s := by
  rw [slot, h, Option.getD_some]

end Images

namespace Rule

variable {r : Rule} {image : Images} {n : Nat}

/-- Every node of the left side has a slot of its own below `n`, and no other node has a slot. -/
structure Placed (r : Rule) (image : Images) (n : Nat) : Prop where
  /-- There is an entry for every rule node. -/
  length_eq : image.length = r.nodes.length
  /-- Nodes of the left side have slots. -/
  exists_slot : ∀ {v : Nat} {role : NodeRole}, r.roleOf v = some role → role.onLeft = true →
    ∃ s < n, image.slot? v = some s
  /-- Right-only nodes have none. -/
  slot_none : ∀ {v : Nat}, r.roleOf v = some .rightOnly → image.slot? v = none
  /-- Distinct nodes have distinct slots. -/
  inj : ∀ {u v s : Nat}, image.slot? u = some s → image.slot? v = some s → u = v

theorem Placed.slot?_eq (h : r.Placed image n) {v : Nat} {role : NodeRole}
    (hv : r.roleOf v = some role) (hleft : role.onLeft = true) :
    image.slot? v = some (image.slot v) ∧ image.slot v < n := by
  obtain ⟨s, hs, hslot⟩ := h.exists_slot hv hleft
  rw [Images.slot, hslot]
  exact ⟨rfl, hs⟩

theorem imageSlot_eq {v s : Nat} (h : image.slot? v = some s) : r.imageSlot image v = .ok s := by
  rw [Images.slot?] at h
  rw [imageSlot, h]

theorem slot?_of_imageSlot_eq_ok {v s : Nat} (h : r.imageSlot image v = .ok s) :
    image.slot? v = some s := by
  rw [imageSlot] at h
  split at h
  · next hslot =>
    cases h
    exact hslot
  · cases h

/-- The edges of the left side. -/
def leftEdges (r : Rule) : List RuleEdge := r.edges.filter (·.role.onLeft)

/-- The endpoints of an edge of the left side have slots. -/
theorem Placed.slot?_of_mem_leftEdges (h : r.Placed image n) (hr : r.isConsistent = true)
    {e : RuleEdge} (he : e ∈ r.leftEdges) :
    (image.slot? e.source = some (image.slot e.source) ∧ image.slot e.source < n) ∧
      image.slot? e.target = some (image.slot e.target) ∧ image.slot e.target < n := by
  obtain ⟨hmem, hleft⟩ := List.mem_filter.mp he
  obtain ⟨⟨a, ha, hsource⟩, b, hb, htarget⟩ := hasNode_of_hasEdge hr (s := .left) hmem hleft
  exact ⟨h.slot?_eq ha hsource, h.slot?_eq hb htarget⟩

/-! ### Serving the edges between two slots -/

/-- The slots given to left-only edges. -/
def removedBy (choices : List (RuleEdge × Nat)) : List Nat :=
  (choices.filter fun choice => choice.1.role = .leftOnly).map Prod.snd

/-- Whether an edge of the left side may be given the edge in a slot. -/
def fitsSlot (r : Rule) (edges : List (Option Edge)) (e : RuleEdge) (i : Nat) : Bool :=
  (edges[i]?).join.any fun found => labelFits r.wildcard e.label found.label

variable {labels : List (Option String)} {edges edges' : List (Option Edge)}

theorem swapRemove_eq_swapErase (l : List Nat) (i : Nat) : swapRemove l i = swapErase l i := by
  rw [swapRemove, swapErase]
  cases l.getLast? <;> rfl

/-- The free slots hold what they held at first. -/
theorem findIdx?_edgeSatisfies {free : List Nat} (hfree : ∀ i ∈ free, edges'[i]? = edges[i]?)
    (e : RuleEdge) :
    (free.findIdx? ((Arena.ofSlots labels edges').edgeSatisfies
      fun found => labelFits r.wildcard e.label found.label)) =
    free.findIdx? (r.fitsSlot edges e) := by
  refine findIdx?_congr fun i hi => ?_
  rw [Arena.edgeSatisfies, Arena.edges_ofSlots, hfree i hi, fitsSlot]

/-- An edge that gets a slot. -/
theorem consumeEdge_of_some {free : List Nat} (hfree : ∀ i ∈ free, edges'[i]? = edges[i]?)
    {e : RuleEdge} {i id : Nat} (hi : free.findIdx? (r.fitsSlot edges e) = some i)
    (hid : free[i]? = some id) (hfits : r.fitsSlot edges e id = true) :
    r.consumeEdge (Arena.ofSlots labels edges', free) e =
      .ok (Arena.ofSlots labels (eraseSlots (removedBy [(e, id)]) edges'), swapErase free i) := by
  obtain ⟨found, hfound, -⟩ := (Option.any_eq_true ..).mp hfits
  have hfound' : (edges'[id]?).join = some found := by
    rw [hfree id (List.mem_of_getElem? hid), hfound]
  rw [consumeEdge]
  simp only [findIdx?_edgeSatisfies hfree e, hi, hid, swapRemove_eq_swapErase]
  by_cases hrole : e.role = .leftOnly
  · rw [if_pos hrole, Arena.removeEdge_ofSlots hfound', set_none_eq_eraseSlots, removedBy]
    simp only [List.filter_cons, hrole]
    rfl
  · rw [if_neg hrole, removedBy]
    simp only [List.filter_cons, hrole, decide_false, Bool.false_eq_true, if_false,
      List.filter_nil, List.map_nil, eraseSlots_nil]
    rfl

theorem removedBy_append (choices choices' : List (RuleEdge × Nat)) :
    removedBy (choices ++ choices') = removedBy choices ++ removedBy choices' := by
  simp [removedBy]

theorem mem_removedBy {choices : List (RuleEdge × Nat)} {i : Nat} :
    i ∈ removedBy choices ↔ ∃ e, (e, i) ∈ choices ∧ e.role = .leftOnly := by
  simp [removedBy]

/-- What is free after an edge got a slot still holds what it held at first. -/
theorem free_swapErase {free : List Nat} (hnodup : free.Nodup)
    (hfree : ∀ i ∈ free, edges'[i]? = edges[i]?) (e : RuleEdge) {i id : Nat}
    (hid : free[i]? = some id) : (swapErase free i).Nodup ∧ ∀ j ∈ swapErase free i,
      (eraseSlots (removedBy [(e, id)]) edges')[j]? = edges[j]? := by
  have hperm := perm_cons_swapErase hid
  obtain ⟨hnotin, hnodup'⟩ := List.nodup_cons.mp (hperm.nodup_iff.mpr hnodup)
  refine ⟨hnodup', fun j hj => ?_⟩
  rw [getElem?_eraseSlots_of_notMem, hfree j (hperm.mem_iff.mp (List.mem_cons_of_mem _ hj))]
  intro hmem
  obtain ⟨e', he', -⟩ := mem_removedBy.mp hmem
  cases List.mem_singleton.mp he'
  exact hnotin hj

/-- Edges of the left side are served one after the other. -/
theorem foldlM_consumeEdge_of_some (labels : List (Option String)) {requests : List RuleEdge}
    {free chosen : List Nat}
    (hnodup : free.Nodup) (hfree : ∀ i ∈ free, edges'[i]? = edges[i]?)
    (h : choose (r.fitsSlot edges) requests free = some chosen) :
    ∃ free', requests.foldlM r.consumeEdge (Arena.ofSlots labels edges', free) =
      .ok (Arena.ofSlots labels (eraseSlots (removedBy (requests.zip chosen)) edges'), free') := by
  induction requests generalizing free chosen edges' with
  | nil =>
    cases h
    refine ⟨free, ?_⟩
    rw [List.zip_nil_right, removedBy, List.filter_nil, List.map_nil, eraseSlots_nil]
    rfl
  | cons e requests ih =>
    obtain ⟨i, id, others, hi, hid, hfits, hothers, rfl⟩ := choose_cons_eq_some h
    obtain ⟨hnodup', hfree'⟩ := free_swapErase hnodup hfree e hid
    obtain ⟨free', hrest⟩ := ih hnodup' hfree' hothers
    refine ⟨free', ?_⟩
    have hzip : (e :: requests).zip (id :: others) = [(e, id)] ++ requests.zip others := rfl
    rw [List.foldlM_cons, consumeEdge_of_some hfree hi hid hfits, hzip, removedBy_append,
      ← eraseSlots_eraseSlots]
    exact hrest

/-- Serving stops at the first edge of the left side for which no edge is left. -/
theorem foldlM_consumeEdge_of_none (labels : List (Option String)) {requests : List RuleEdge}
    {free : List Nat} (hnodup : free.Nodup) (hfree : ∀ i ∈ free, edges'[i]? = edges[i]?)
    (h : choose (r.fitsSlot edges) requests free = none) :
    ∃ e ∈ requests, requests.foldlM r.consumeEdge (Arena.ofSlots labels edges', free) =
      .error (.missingEdge r.id e.source e.target e.label) := by
  induction requests generalizing free edges' with
  | nil => cases h
  | cons e requests ih =>
    rw [List.foldlM_cons]
    cases hi : free.findIdx? (r.fitsSlot edges e) with
    | none =>
      refine ⟨e, List.mem_cons_self, ?_⟩
      rw [consumeEdge]
      simp only [findIdx?_edgeSatisfies hfree e, hi]
      rfl
    | some i =>
      obtain ⟨id, hid, hfits⟩ : ∃ id, free[i]? = some id ∧ r.fitsSlot edges e id = true := by
        obtain ⟨hlt, hget, -⟩ := List.findIdx?_eq_some_iff_getElem.mp hi
        exact ⟨free[i], List.getElem?_eq_getElem hlt, hget⟩
      have hothers : choose (r.fitsSlot edges) requests (swapErase free i) = none := by
        rw [choose, hi, Option.bind_some, hid, Option.bind_some, Option.map_eq_none_iff] at h
        exact h
      obtain ⟨hnodup', hfree'⟩ := free_swapErase hnodup hfree e hid
      obtain ⟨e', he', hfault⟩ := ih hnodup' hfree' hothers
      refine ⟨e', List.mem_cons_of_mem _ he', ?_⟩
      rw [consumeEdge_of_some hfree hi hid hfits]
      exact hfault

/-! ### All pairs of slots -/

/-- An edge of the left side with its slots. -/
def placeEdge (image : Images) (e : RuleEdge) : PlacedEdge :=
  ⟨min (image.slot e.source) (image.slot e.target), max (image.slot e.source) (image.slot e.target),
    e⟩

/-- The edges of the left side with their slots. -/
def placedEdges (r : Rule) (image : Images) : List PlacedEdge := r.leftEdges.map (placeEdge image)

theorem placeLeftEdges_eq (hr : r.isConsistent = true) (h : r.Placed image n) :
    r.placeLeftEdges image = .ok (r.placedEdges image) := by
  refine mapM_eq_ok fun e he => ?_
  obtain ⟨⟨hs, -⟩, ht, -⟩ := h.slot?_of_mem_leftEdges hr he
  rw [imageSlot_eq hs, imageSlot_eq ht]
  rfl

/-- If the edges of the left side can be placed, their endpoints have slots. -/
theorem exists_slots_of_placeLeftEdges_eq_ok {placed : List PlacedEdge}
    (h : r.placeLeftEdges image = .ok placed) {e : RuleEdge} (he : e ∈ r.leftEdges) :
    (∃ s, image.slot? e.source = some s) ∧ ∃ s, image.slot? e.target = some s := by
  obtain ⟨_, hplaced⟩ := exists_of_mapM_eq_ok h e he
  obtain ⟨a, ha, hplaced⟩ := bind_eq_ok_iff.mp hplaced
  obtain ⟨b, hb, -⟩ := bind_eq_ok_iff.mp hplaced
  exact ⟨⟨a, slot?_of_imageSlot_eq_ok ha⟩, b, slot?_of_imageSlot_eq_ok hb⟩

/-- The edges of the left side between two slots, in the order in which they are served. -/
def edgesAt (r : Rule) (image : Images) (pair : Nat × Nat) : List RuleEdge :=
  (((r.placedEdges image).filter fun e => e.low == pair.1 && e.high == pair.2).map
    (·.edge)).mergeSort fun a b => r.turn a ≤ r.turn b

/-- The slots of the edges of the target between two slots. -/
def slotsAt (edges : List (Option Edge)) (pair : Nat × Nat) : List Nat :=
  slotsWhere edges fun e => e.connects pair.1 pair.2

/-- The edges of the left side between two slots with the slots given to them. -/
def choicesAt (r : Rule) (image : Images) (edges : List (Option Edge)) (pair : Nat × Nat) :
    Option (List (RuleEdge × Nat)) :=
  (choose (r.fitsSlot edges) (r.edgesAt image pair) (slotsAt edges pair)).map
    (r.edgesAt image pair).zip

/-- The edges of the left side between given pairs of slots with the slots given to them. -/
def choicesAlong (r : Rule) (image : Images) (edges : List (Option Edge)) :
    List (Nat × Nat) → Option (List (RuleEdge × Nat))
  | [] => some []
  | pair :: pairs =>
    (r.choicesAt image edges pair).bind fun choices =>
      (r.choicesAlong image edges pairs).map (choices ++ ·)

/-- The edges of the left side with the slots given to them. -/
def choices (r : Rule) (image : Images) (edges : List (Option Edge)) :
    Option (List (RuleEdge × Nat)) :=
  r.choicesAlong image edges (placedPairs (r.placedEdges image))

theorem nodup_slotsAt (edges : List (Option Edge)) (pair : Nat × Nat) :
    (slotsAt edges pair).Nodup := nodup_slotsWhere edges _

/-- An edge joins one pair of slots only. -/
theorem eq_of_mem_slotsAt {pair pair' : Nat × Nat} (hle : pair.1 ≤ pair.2)
    (hle' : pair'.1 ≤ pair'.2) {i : Nat} (h : i ∈ slotsAt edges pair)
    (h' : i ∈ slotsAt edges pair') : pair = pair' := by
  obtain ⟨e, he, hconnects⟩ := mem_slotsWhere.mp h
  obtain ⟨e', he', hconnects'⟩ := mem_slotsWhere.mp h'
  rw [he] at he'
  cases he'
  simp only [Edge.connects, Bool.or_eq_true, Bool.and_eq_true, beq_iff_eq] at hconnects hconnects'
  refine Prod.ext ?_ ?_ <;> omega

theorem slotsAt_eraseSlots {ids : List Nat} {pair : Nat × Nat}
    (h : ∀ i ∈ ids, i ∉ slotsAt edges pair) :
    slotsAt (eraseSlots ids edges) pair = slotsAt edges pair := by
  rw [slotsAt, slotsAt, slotsWhere, slotsWhere, eraseSlots, List.length_mapIdx]
  refine List.filter_congr fun i _ => ?_
  rw [← eraseSlots]
  by_cases hi : i ∈ ids
  · have hnone : ¬ (edges[i]?).join.any (fun e => e.connects pair.1 pair.2) = true := fun hany =>
      h i hi (mem_slotsWhere.mpr ((Option.any_eq_true ..).mp hany))
    rw [Bool.not_eq_true] at hnone
    rw [hnone, getElem?_eraseSlots]
    cases edges[i]? <;> simp [hi]
  · rw [getElem?_eraseSlots_of_notMem hi]

theorem mem_slotsAt_of_mem_choicesAt {pair : Nat × Nat} {choices : List (RuleEdge × Nat)}
    (h : r.choicesAt image edges pair = some choices) {e : RuleEdge} {i : Nat}
    (hi : (e, i) ∈ choices) : i ∈ slotsAt edges pair := by
  obtain ⟨chosen, hchosen, rfl⟩ := Option.map_eq_some_iff.mp h
  exact (subperm_choose hchosen).subset (List.of_mem_zip hi).2

/-- The edges of the left side that are placed between two slots. -/
def placedAt (placed : List PlacedEdge) (pair : Nat × Nat) : List RuleEdge :=
  (placed.filter fun e => e.low == pair.1 && e.high == pair.2).map (·.edge)

/-- Where the slots between two nodes can be read, the edges placed there are served from them. -/
theorem consumePair_of_slotsBetween (r : Rule) (placed : List PlacedEdge) {host : Arena}
    {pair : Nat × Nat} {free : List Nat} (h : host.slotsBetween pair.1 pair.2 = .ok free) :
    r.consumePair placed host pair =
      (((placedAt placed pair).mergeSort fun a b => r.turn a ≤ r.turn b).foldlM r.consumeEdge
        (host, free)).map Prod.fst := by
  rw [consumePair, h, placedAt]
  simp only [bind, Except.bind]
  split <;> next heq => rw [heq]; rfl

/-- The edges between one pair of slots are served, if the pair was not touched before. -/
theorem consumePair_eq (r : Rule) (image : Images) {pair : Nat × Nat} {ids : List Nat}
    {label label' : String}
    (hlow : (labels[pair.1]?).join = some label) (hhigh : (labels[pair.2]?).join = some label')
    (hids : ∀ i ∈ ids, i ∉ slotsAt edges pair) :
    (∀ choices, r.choicesAt image edges pair = some choices →
      r.consumePair (r.placedEdges image) (Arena.ofSlots labels (eraseSlots ids edges)) pair =
        .ok (Arena.ofSlots labels (eraseSlots (ids ++ removedBy choices) edges))) ∧
    (r.choicesAt image edges pair = none → ∃ fault,
      r.consumePair (r.placedEdges image) (Arena.ofSlots labels (eraseSlots ids edges)) pair =
        .error fault) := by
  have hnodup := nodup_slotsAt edges pair
  have hfree : ∀ i ∈ slotsAt edges pair, (eraseSlots ids edges)[i]? = edges[i]? := fun i hi =>
    getElem?_eraseSlots_of_notMem (fun hmem => hids i hmem hi) edges
  have hslots : (Arena.ofSlots labels (eraseSlots ids edges)).slotsBetween pair.1 pair.2 =
      .ok (slotsAt edges pair) := by
    rw [Arena.slotsBetween_ofSlots hlow hhigh, ← slotsAt_eraseSlots hids]
    rfl
  constructor
  · intro choices h
    obtain ⟨chosen, hchosen, rfl⟩ := Option.map_eq_some_iff.mp h
    obtain ⟨free', hfold⟩ := foldlM_consumeEdge_of_some labels hnodup hfree hchosen
    rw [consumePair_of_slotsBetween r _ hslots, ← eraseSlots_eraseSlots]
    exact congrArg (Except.map Prod.fst) hfold
  · intro h
    rw [choicesAt, Option.map_eq_none_iff] at h
    obtain ⟨e, -, hfold⟩ := foldlM_consumeEdge_of_none labels hnodup hfree h
    refine ⟨.missingEdge r.id e.source e.target e.label, ?_⟩
    rw [consumePair_of_slotsBetween r _ hslots]
    exact congrArg (Except.map Prod.fst) hfold

/-- The edges between distinct pairs of slots are served pair by pair. -/
theorem foldlM_consumePair_eq (r : Rule) (image : Images) (labels : List (Option String))
    (edges : List (Option Edge)) (ids : List Nat) {pairs : List (Nat × Nat)} (hnodup : pairs.Nodup)
    (hle : ∀ pair ∈ pairs, pair.1 ≤ pair.2)
    (halive : ∀ pair ∈ pairs, (∃ label, (labels[pair.1]?).join = some label) ∧
      ∃ label, (labels[pair.2]?).join = some label)
    (hids : ∀ pair ∈ pairs, ∀ i ∈ ids, i ∉ slotsAt edges pair) :
    (∀ choices, r.choicesAlong image edges pairs = some choices →
      pairs.foldlM (r.consumePair (r.placedEdges image))
        (Arena.ofSlots labels (eraseSlots ids edges)) =
        .ok (Arena.ofSlots labels (eraseSlots (ids ++ removedBy choices) edges))) ∧
    (r.choicesAlong image edges pairs = none → ∃ fault,
      pairs.foldlM (r.consumePair (r.placedEdges image))
        (Arena.ofSlots labels (eraseSlots ids edges)) = .error fault) := by
  induction pairs generalizing ids with
  | nil =>
    refine ⟨fun choices h => ?_, fun h => ?_⟩
    · cases h
      rw [removedBy, List.filter_nil, List.map_nil, List.append_nil]
      rfl
    · cases h
  | cons pair pairs ih =>
    obtain ⟨hnotin, hnodup'⟩ := List.nodup_cons.mp hnodup
    obtain ⟨⟨label, hlow⟩, label', hhigh⟩ := halive pair (List.mem_cons_self ..)
    obtain ⟨hsome, hnone⟩ := consumePair_eq r image hlow hhigh
      (hids pair (List.mem_cons_self ..))
    rw [choicesAlong, List.foldlM_cons]
    cases hchoices : r.choicesAt image edges pair with
    | none =>
      obtain ⟨fault, hfault⟩ := hnone hchoices
      refine ⟨fun choices h => ?_, fun _ => ⟨fault, ?_⟩⟩
      · cases h
      · rw [hfault]
        rfl
    | some choices =>
      have hids' : ∀ pair' ∈ pairs, ∀ i ∈ ids ++ removedBy choices, i ∉ slotsAt edges pair' := by
        intro pair' hpair' i hi hmem
        rcases List.mem_append.mp hi with hi | hi
        · exact hids pair' (List.mem_cons_of_mem _ hpair') i hi hmem
        · obtain ⟨e, he, -⟩ := mem_removedBy.mp hi
          have hat := mem_slotsAt_of_mem_choicesAt hchoices he
          have heq := eq_of_mem_slotsAt (hle pair (List.mem_cons_self ..))
            (hle pair' (List.mem_cons_of_mem _ hpair')) hat hmem
          exact hnotin (heq ▸ hpair')
      obtain ⟨ihsome, ihnone⟩ := ih (ids ++ removedBy choices) hnodup'
        (fun p hp => hle p (List.mem_cons_of_mem _ hp))
        (fun p hp => halive p (List.mem_cons_of_mem _ hp)) hids'
      rw [hsome choices hchoices, Option.bind_some]
      refine ⟨fun all h => ?_, fun h => ?_⟩
      · obtain ⟨others, hothers, rfl⟩ := Option.map_eq_some_iff.mp h
        have := ihsome others hothers
        rw [removedBy_append, ← List.append_assoc]
        exact this
      · exact ihnone (Option.map_eq_none_iff.mp h)

/-! ### The pairs of slots -/

theorem pairs_atMost_iff {a b : Nat × Nat} :
    ((compare a.1 b.1).then (compare a.2 b.2)).isLE = true ↔
      a.1 < b.1 ∨ a.1 = b.1 ∧ a.2 ≤ b.2 := by
  rcases Nat.lt_trichotomy a.1 b.1 with h | h | h
  · simp [Nat.compare_eq_lt.mpr h, h]
  · simp [h, Nat.isLE_compare]
  · simp [Nat.compare_eq_gt.mpr h, Nat.not_lt_of_gt h, Nat.ne_of_gt h]

theorem mem_placedPairs {placed : List PlacedEdge} {pair : Nat × Nat} :
    pair ∈ placedPairs placed ↔ ∃ e ∈ placed, (e.low, e.high) = pair := by
  rw [placedPairs, mem_eraseReps, List.mem_mergeSort, List.mem_map]

theorem nodup_placedPairs (placed : List PlacedEdge) : (placedPairs placed).Nodup := by
  refine nodup_eraseReps (r := fun a b => ((compare a.1 b.1).then (compare a.2 b.2)).isLE = true)
    (fun a b hab hba => ?_) (List.pairwise_mergeSort (fun a b c hab hbc => ?_) (fun a b => ?_) _)
  · rw [pairs_atMost_iff] at hab hba
    refine Prod.ext ?_ ?_ <;> omega
  · rw [pairs_atMost_iff] at hab hbc ⊢
    omega
  · rw [Bool.or_eq_true, pairs_atMost_iff, pairs_atMost_iff]
    omega

/-- **Giving edges to the left side** succeeds when everybody gets an edge, and removes the edges
given to left-only edges. -/
theorem deleteEdges_eq (hr : r.isConsistent = true) (h : r.Placed image n)
    (halive : ∀ s < n, ∃ label, (labels[s]?).join = some label) (edges : List (Option Edge)) :
    (∀ choices, r.choices image edges = some choices →
      r.deleteEdges image (Arena.ofSlots labels edges) =
        .ok (Arena.ofSlots labels (eraseSlots (removedBy choices) edges))) ∧
    (r.choices image edges = none →
      ∃ fault, r.deleteEdges image (Arena.ofSlots labels edges) = .error fault) := by
  have hpairs : ∀ pair ∈ placedPairs (r.placedEdges image), pair.1 ≤ pair.2 ∧ pair.2 < n := by
    intro pair hpair
    obtain ⟨placed, hplaced, rfl⟩ := mem_placedPairs.mp hpair
    obtain ⟨e, he, rfl⟩ := List.mem_map.mp hplaced
    obtain ⟨⟨-, hs⟩, -, ht⟩ := h.slot?_of_mem_leftEdges hr he
    simp only [placeEdge]
    omega
  have hfold := foldlM_consumePair_eq r image labels edges [] (nodup_placedPairs _)
    (fun pair hpair => (hpairs pair hpair).1)
    (fun pair hpair => ⟨halive _ (Nat.lt_of_le_of_lt (hpairs pair hpair).1 (hpairs pair hpair).2),
      halive _ (hpairs pair hpair).2⟩) (fun _ _ i hi => absurd hi List.not_mem_nil)
  rw [eraseSlots_nil] at hfold
  rw [deleteEdges, placeLeftEdges_eq hr h]
  exact hfold

/-! ### What is given -/

/-- Entries that are collected by their keys, each key once. -/
theorem perm_flatMap_filter {α κ : Type} [BEq κ] [LawfulBEq κ] (key : α → κ) {keys : List κ}
    (hnodup : keys.Nodup) {l : List α} (h : ∀ a ∈ l, key a ∈ keys) :
    (keys.flatMap fun k => l.filter fun a => key a == k).Perm l := by
  induction keys generalizing l with
  | nil =>
    have : l = [] := List.eq_nil_iff_forall_not_mem.mpr fun a ha => List.not_mem_nil (h a ha)
    rw [this]
    rfl
  | cons k keys ih =>
    obtain ⟨hk, hnodup⟩ := List.nodup_cons.mp hnodup
    rw [List.flatMap_cons]
    refine List.Perm.trans (List.Perm.append_left _ ?_)
      (List.filter_append_perm (fun a => key a == k) l)
    have hrest : ∀ a ∈ l.filter (fun a => !(key a == k)), key a ∈ keys := by
      intro a ha
      obtain ⟨ha, hne⟩ := List.mem_filter.mp ha
      exact (List.mem_cons.mp (h a ha)).resolve_left (by simpa using hne)
    refine List.Perm.trans (List.Perm.of_eq ?_) (ih hnodup hrest)
    refine List.flatMap_congr fun k' hk' => ?_
    rw [List.filter_filter]
    refine List.filter_congr fun a _ => ?_
    by_cases ha : key a = k'
    · have : k' ≠ k := fun heq => hk (heq ▸ hk')
      simp [ha, this]
    · simp [ha]

/-- The pair of slots that an edge of the left side joins, the smaller slot first. -/
def pairOf (image : Images) (e : RuleEdge) : Nat × Nat :=
  (min (image.slot e.source) (image.slot e.target), max (image.slot e.source) (image.slot e.target))

theorem edgesAt_eq (r : Rule) (image : Images) (pair : Nat × Nat) : r.edgesAt image pair =
    (r.leftEdges.filter fun e => pairOf image e == pair).mergeSort fun a b =>
      r.turn a ≤ r.turn b := by
  rw [edgesAt, placedEdges, List.filter_map, List.map_map]
  refine congrArg (List.mergeSort · _) ?_
  exact List.map_id _

theorem mem_edgesAt {pair : Nat × Nat} {e : RuleEdge} :
    e ∈ r.edgesAt image pair ↔ e ∈ r.leftEdges ∧ pairOf image e = pair := by
  rw [edgesAt_eq, List.mem_mergeSort, List.mem_filter, beq_iff_eq]

theorem mem_pairs_iff {pair : Nat × Nat} :
    pair ∈ placedPairs (r.placedEdges image) ↔ ∃ e ∈ r.leftEdges, pairOf image e = pair := by
  rw [mem_placedPairs, placedEdges]
  simp [placeEdge, pairOf]

theorem map_fst_choicesAt {pair : Nat × Nat} {choices : List (RuleEdge × Nat)}
    (h : r.choicesAt image edges pair = some choices) :
    choices.map Prod.fst = r.edgesAt image pair := by
  obtain ⟨chosen, hchosen, rfl⟩ := Option.map_eq_some_iff.mp h
  exact List.map_fst_zip (forall₂_choose hchosen).length_eq.le

theorem choicesAt_spec {pair : Nat × Nat} {choices : List (RuleEdge × Nat)}
    (h : r.choicesAt image edges pair = some choices) :
    (choices.map Prod.snd).Nodup ∧ ∀ e i, (e, i) ∈ choices →
      i ∈ slotsAt edges pair ∧ r.fitsSlot edges e i = true := by
  obtain ⟨chosen, hchosen, rfl⟩ := Option.map_eq_some_iff.mp h
  have hfits := forall₂_choose hchosen
  refine ⟨?_, fun e i hi => ⟨mem_slotsAt_of_mem_choicesAt h hi, ?_⟩⟩
  · rw [List.map_snd_zip hfits.length_eq.ge]
    obtain ⟨s, hs, hsub⟩ := subperm_choose hchosen
    exact hs.nodup_iff.mp (hsub.nodup (nodup_slotsAt edges pair))
  · exact (List.forall₂_iff_zip.mp hfits).2 hi

/-- Along some pairs of slots everybody gets an edge if that is so at each of them. -/
theorem choicesAlong_eq_some_iff {pairs : List (Nat × Nat)} {choices : List (RuleEdge × Nat)} :
    r.choicesAlong image edges pairs = some choices ↔
      (∀ pair ∈ pairs, (r.choicesAt image edges pair).isSome = true) ∧
        choices = pairs.flatMap fun pair => (r.choicesAt image edges pair).getD [] := by
  induction pairs generalizing choices with
  | nil =>
    rw [choicesAlong, Option.some.injEq, List.flatMap_nil]
    exact ⟨fun h => ⟨fun _ hmem => absurd hmem List.not_mem_nil, h.symm⟩, fun h => h.2.symm⟩
  | cons pair pairs ih =>
    rw [choicesAlong, List.forall_mem_cons, List.flatMap_cons]
    cases hpair : r.choicesAt image edges pair with
    | none => simp
    | some part =>
      rw [Option.bind_some, Option.map_eq_some_iff]
      constructor
      · rintro ⟨others, hothers, rfl⟩
        obtain ⟨hsome, rfl⟩ := ih.mp hothers
        exact ⟨⟨rfl, hsome⟩, rfl⟩
      · rintro ⟨⟨-, hsome⟩, rfl⟩
        exact ⟨_, ih.mpr ⟨hsome, rfl⟩, rfl⟩

theorem choices_eq_some_iff {choices : List (RuleEdge × Nat)} :
    r.choices image edges = some choices ↔
      (∀ e ∈ r.leftEdges, (r.choicesAt image edges (pairOf image e)).isSome = true) ∧
        choices = (placedPairs (r.placedEdges image)).flatMap fun pair =>
          (r.choicesAt image edges pair).getD [] := by
  rw [Rule.choices, choicesAlong_eq_some_iff]
  refine and_congr_left fun _ => ?_
  constructor
  · exact fun h e he => h _ (mem_pairs_iff.mpr ⟨e, he, rfl⟩)
  · intro h pair hpair
    obtain ⟨e, he, rfl⟩ := mem_pairs_iff.mp hpair
    exact h e he

theorem isSome_choicesAt {choices : List (RuleEdge × Nat)}
    (h : r.choices image edges = some choices) (pair : Nat × Nat) :
    (r.choicesAt image edges pair).isSome = true := by
  cases hat : r.edgesAt image pair with
  | nil =>
    rw [choicesAt, hat]
    rfl
  | cons e rest =>
    obtain ⟨he, rfl⟩ := mem_edgesAt.mp (hat ▸ List.mem_cons_self ..)
    exact (choices_eq_some_iff.mp h).1 e he

theorem le_of_mem_pairs {pair : Nat × Nat} (h : pair ∈ placedPairs (r.placedEdges image)) :
    pair.1 ≤ pair.2 := by
  obtain ⟨e, -, rfl⟩ := mem_pairs_iff.mp h
  simp only [pairOf]
  omega

section

variable {choices : List (RuleEdge × Nat)} (h : r.choices image edges = some choices)

include h

/-- Every edge of the left side gets an edge. -/
theorem map_fst_choices_perm : (choices.map Prod.fst).Perm r.leftEdges := by
  obtain ⟨hsome, rfl⟩ := choices_eq_some_iff.mp h
  rw [List.map_flatMap]
  have hparts : ((placedPairs (r.placedEdges image)).flatMap fun pair =>
      ((r.choicesAt image edges pair).getD []).map Prod.fst).Perm
      ((placedPairs (r.placedEdges image)).flatMap fun pair =>
        r.leftEdges.filter fun e => pairOf image e == pair) := by
    refine List.Perm.flatMap_left _ fun pair hpair => ?_
    obtain ⟨e, he, rfl⟩ := mem_pairs_iff.mp hpair
    obtain ⟨part, hpart⟩ := Option.isSome_iff_exists.mp (hsome e he)
    rw [hpart, Option.getD_some, map_fst_choicesAt hpart, edgesAt_eq]
    exact List.mergeSort_perm _ _
  exact hparts.trans (perm_flatMap_filter (pairOf image) (nodup_placedPairs _)
    fun e he => mem_pairs_iff.mpr ⟨e, he, rfl⟩)

/-- What is given at one pair of slots. -/
theorem choicesAt_of_mem {e : RuleEdge} {i : Nat} (hi : (e, i) ∈ choices) :
    ∃ part, r.choicesAt image edges (pairOf image e) = some part ∧ (e, i) ∈ part := by
  obtain ⟨hsome, rfl⟩ := choices_eq_some_iff.mp h
  obtain ⟨pair, hpair, hmem⟩ := List.mem_flatMap.mp hi
  obtain ⟨e', he', rfl⟩ := mem_pairs_iff.mp hpair
  obtain ⟨part, hpart⟩ := Option.isSome_iff_exists.mp (hsome e' he')
  rw [hpart, Option.getD_some] at hmem
  have he : e ∈ r.edgesAt image (pairOf image e') := by
    rw [← map_fst_choicesAt hpart]
    exact List.mem_map_of_mem hmem
  rw [(mem_edgesAt.mp he).2]
  exact ⟨part, hpart, hmem⟩

/-- **What is given fits**: it lies between the slots of the endpoints and has an admitted label. -/
theorem choices_spec {e : RuleEdge} {i : Nat} (hi : (e, i) ∈ choices) :
    i ∈ slotsAt edges (pairOf image e) ∧ r.fitsSlot edges e i = true := by
  obtain ⟨part, hpart, hmem⟩ := choicesAt_of_mem h hi
  exact (choicesAt_spec hpart).2 e i hmem

/-- No edge is given twice. -/
theorem nodup_map_snd_choices : (choices.map Prod.snd).Nodup := by
  obtain ⟨hsome, rfl⟩ := choices_eq_some_iff.mp h
  rw [List.map_flatMap]
  have hparts : ∀ pair ∈ placedPairs (r.placedEdges image),
      ∃ part, r.choicesAt image edges pair = some part := by
    intro pair hpair
    obtain ⟨e, he, rfl⟩ := mem_pairs_iff.mp hpair
    exact Option.isSome_iff_exists.mp (hsome e he)
  refine List.nodup_flatMap.mpr ⟨fun pair hpair => ?_, ?_⟩
  · obtain ⟨part, hpart⟩ := hparts pair hpair
    rw [hpart, Option.getD_some]
    exact (choicesAt_spec hpart).1
  · refine (nodup_placedPairs _).imp_of_mem fun {pair pair'} hpair hpair' hne => ?_
    refine List.disjoint_left.mpr fun i hi hi' => hne ?_
    obtain ⟨part, hpart⟩ := hparts pair hpair
    obtain ⟨part', hpart'⟩ := hparts pair' hpair'
    simp only [hpart, Option.getD_some] at hi
    simp only [hpart', Option.getD_some] at hi'
    obtain ⟨⟨e, i⟩, hmem, rfl⟩ := List.mem_map.mp hi
    obtain ⟨⟨e', i'⟩, hmem', rfl⟩ := List.mem_map.mp hi'
    exact eq_of_mem_slotsAt (le_of_mem_pairs hpair) (le_of_mem_pairs hpair')
      (mem_slotsAt_of_mem_choicesAt hpart hmem) (mem_slotsAt_of_mem_choicesAt hpart' hmem')

end

end Rule

end GraphGrammar
