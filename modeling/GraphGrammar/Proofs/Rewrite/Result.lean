import Mathlib.Data.List.ReduceOption
import GraphGrammar.Proofs.Rewrite.Addition
import GraphGrammar.Proofs.Rewrite.Labels

/-!
# What a step leaves

The phases after the copy are put together: which nodes remain under which numbers, which labels
they have, and which edges there are.

## Main definitions

* `GraphGrammar.Rule.stays` — the slots that are not removed.
* `GraphGrammar.Rule.leftLabels`, `GraphGrammar.Rule.leftBehind` — the nodes and edges at the end.
* `GraphGrammar.Rule.rework` — the phases after the copy.

## Main results

* `GraphGrammar.Rule.Placed.slot_finalImage_cases` — the slots of the nodes of the right side.
* `GraphGrammar.Rule.rework_eq` — the phases on a host in which the left side was placed.
-/

namespace GraphGrammar

namespace Rule

variable {r : Rule} {image : Images} {n : Nat} {mode : Relabeling}

/-- Whether a slot is not that of a left-only node. -/
def stays (r : Rule) (image : Images) (s : Nat) : Bool :=
  !(r.deletedPairs image).any fun d => d.1 == s

theorem stays_eq_true_iff {s : Nat} : r.stays image s = true ↔
    ∀ v, r.roleOf v = some .leftOnly → image.slot v ≠ s := by
  rw [stays, Bool.not_eq_true', List.any_eq_false]
  constructor
  · intro h v hv hslot
    exact h (s, v) (mem_deletedPairs.mpr ⟨hv, hslot⟩) (beq_self_eq_true s)
  · intro h d hd heq
    obtain ⟨hrole, hslot⟩ := mem_deletedPairs.mp hd
    exact h d.2 hrole (hslot.trans (eq_of_beq heq))

theorem Placed.stays_iff (h : r.Placed image n) {s : Nat} : r.stays image s = true ↔
    ∀ v, r.roleOf v = some .leftOnly → image.slot? v ≠ some s := by
  rw [stays_eq_true_iff]
  refine forall_congr' fun v => forall_congr' fun hv => not_congr ?_
  rw [(h.slot?_eq hv rfl).1, Option.some.injEq]

theorem touchesDeleted_eq (r : Rule) (image : Images) (e : Edge) :
    r.touchesDeleted image e = !(r.stays image e.source && r.stays image e.target) := by
  rw [Bool.eq_iff_iff]
  simp only [touchesDeleted, stays, Bool.not_and, Bool.not_not, Bool.or_eq_true, List.any_eq_true,
    beq_iff_eq, Edge.touches]
  constructor
  · rintro ⟨d, hd, h | h⟩
    · exact .inl ⟨d, hd, h.symm⟩
    · exact .inr ⟨d, hd, h.symm⟩
  · rintro (⟨d, hd, h⟩ | ⟨d, hd, h⟩)
    · exact ⟨d, hd, .inl h.symm⟩
    · exact ⟨d, hd, .inr h.symm⟩

theorem Placed.stays_of_le (h : r.Placed image n) {s : Nat} (hs : n ≤ s) :
    r.stays image s = true := by
  refine stays_eq_true_iff.mpr fun v hv hslot => ?_
  have := (h.slot?_eq hv rfl).2
  omega

theorem Placed.stays_of_survives (h : r.Placed image n) {v s : Nat} {role : NodeRole}
    (hv : r.roleOf v = some role) (hrole : role.survives = true) (hs : image.slot? v = some s) :
    r.stays image s = true := by
  refine stays_eq_true_iff.mpr fun u hu hslot => ?_
  have huv := h.inj ((hslot ▸ (h.slot?_eq hu rfl).1 : image.slot? u = some s)) hs
  rw [huv, hv] at hu
  cases Option.some.inj hu
  exact absurd hrole Bool.false_ne_true

/-! ### Nodes of the right side have slots -/

/-- The slots of nodes after the removals. -/
def remainingLabels (r : Rule) (mode : Relabeling) (image : Images) (g : Graph) :
    List (Option String) :=
  clearSlots (r.deletedPairs image) (mapLabels (r.labelAt mode image) (g.labels.map some))

/-- The slots of nodes at the end. -/
def finalLabels (r : Rule) (mode : Relabeling) (image : Images) (g : Graph) :
    List (Option String) :=
  r.remainingLabels mode image g ++ r.newLabels.map some

theorem length_remainingLabels (r : Rule) (mode : Relabeling) (image : Images) (g : Graph) :
    (r.remainingLabels mode image g).length = g.nodeCount := by
  rw [remainingLabels, clearSlots, List.length_mapIdx, mapLabels, List.length_mapIdx,
    List.length_map, Graph.nodeCount]

theorem join_getElem?_remainingLabels (r : Rule) (mode : Relabeling) (image : Images) (g : Graph)
    (s : Nat) : ((r.remainingLabels mode image g)[s]?).join =
      if r.stays image s then (g.labels[s]?).map (r.labelAt mode image s) else none := by
  rw [remainingLabels, getElem?_clearSlots, getElem?_mapLabels, List.getElem?_map, stays]
  cases g.labels[s]? <;> cases (r.deletedPairs image).any fun d => d.1 == s <;> rfl

theorem length_newLabels (r : Rule) : r.newLabels.length = rank r.isRightOnly r.nodes.length := by
  rw [newLabels, List.length_map, rank_isRightOnly, List.take_length, List.countP_eq_length_filter]

theorem alive_finalLabels (r : Rule) (mode : Relabeling) (image : Images) (g : Graph) {s : Nat}
    (h : r.Placed image g.nodeCount) (hs : s < g.nodeCount + r.newLabels.length) :
    Arena.alive (r.finalLabels mode image g) s = r.stays image s := by
  have hlen := length_remainingLabels r mode image g
  rw [Arena.alive, finalLabels]
  rcases Nat.lt_or_ge s g.nodeCount with hlt | hge
  · rw [List.getElem?_append_left (by omega), join_getElem?_remainingLabels]
    rw [Graph.nodeCount] at hlt
    cases r.stays image s <;> simp [hlt]
  · rw [List.getElem?_append_right (by omega), Arena.join_getElem?_map_some, h.stays_of_le hge,
      List.getElem?_eq_getElem (by omega)]
    rfl

theorem exists_label_of_stays (mode : Relabeling) {g : Graph} (h : r.Placed image g.nodeCount)
    {s : Nat}
    (hs : s < g.nodeCount + r.newLabels.length) (hstays : r.stays image s = true) :
    ∃ label, ((r.finalLabels mode image g)[s]?).join = some label := by
  have := alive_finalLabels r mode image g h hs
  rw [hstays] at this
  exact Option.isSome_iff_exists.mp this

/-- The slots of all rule nodes, right-only nodes behind those of a graph. -/
def finalImage (r : Rule) (image : Images) (g : Graph) : Images := r.fullImage g.nodeCount image

theorem roleOf_lt {v : Nat} {role : NodeRole} (h : r.roleOf v = some role) :
    v < r.nodes.length := by
  obtain ⟨node, hnode, -⟩ := Option.map_eq_some_iff.mp h
  exact (List.getElem?_eq_some_iff.mp hnode).1

theorem roleOf_of_lt {v : Nat} (h : v < r.nodes.length) : r.roleOf v = some r.nodes[v].role := by
  rw [roleOf, List.getElem?_eq_getElem h, Option.map_some]

theorem slot?_finalImage_of_survives {g : Graph} {v : Nat} {role : NodeRole}
    (hv : r.roleOf v = some role) (hrole : role.survives = true) :
    (r.finalImage image g).slot? v = image.slot? v := by
  have hright : r.isRightOnly v = false := by
    rw [isRightOnly, hv]
    cases role <;> first | rfl | exact absurd hrole Bool.false_ne_true
  rw [finalImage, slot?_fullImage _ _ _ (roleOf_lt hv), hright]
  rfl

theorem slot?_finalImage_of_rightOnly (image : Images) (g : Graph) {v : Nat}
    (hv : r.roleOf v = some .rightOnly) :
    (r.finalImage image g).slot? v = some (g.nodeCount + rank r.isRightOnly v) ∧
      rank r.isRightOnly v < r.newLabels.length := by
  have hright : r.isRightOnly v = true := by
    rw [isRightOnly, hv]
    rfl
  have hlt := roleOf_lt hv
  rw [finalImage, slot?_fullImage _ _ _ hlt, hright, length_newLabels]
  exact ⟨rfl, rank_lt_rank hright hlt⟩

/-- A rule node of the left side keeps its slot. A right-only node gets a new one. -/
theorem Placed.slot_finalImage_cases {g : Graph} (h : r.Placed image g.nodeCount) {v : Nat}
    {role : NodeRole} (hv : r.roleOf v = some role) :
    (role.onLeft = true ∧ image.slot? v = some ((r.finalImage image g).slot v) ∧
      (r.finalImage image g).slot v < g.nodeCount) ∨
    (role = .rightOnly ∧ (r.finalImage image g).slot v = g.nodeCount + rank r.isRightOnly v ∧
      rank r.isRightOnly v < r.newLabels.length) := by
  by_cases hnew : role = .rightOnly
  · subst hnew
    obtain ⟨hslot, hlt⟩ := slot?_finalImage_of_rightOnly image g hv
    exact .inr ⟨rfl, Images.slot_of_slot? hslot, hlt⟩
  · have hleft : role.onLeft = true := by
      cases role <;> first | rfl | exact absurd rfl hnew
    have hright : r.isRightOnly v = false := by
      rw [isRightOnly, hv]
      simpa using hnew
    have hslot : (r.finalImage image g).slot v = image.slot v := by
      rw [Images.slot, finalImage, slot?_fullImage _ _ _ (roleOf_lt hv), hright]
      rfl
    rw [hslot]
    exact .inl ⟨hleft, h.slot?_eq hv hleft⟩

/-- The nodes of the right side have slots that stay. -/
theorem Placed.finalImage_spec {g : Graph} (h : r.Placed image g.nodeCount) {v : Nat}
    {role : NodeRole} (hv : r.roleOf v = some role) (hrole : role.onRight = true) :
    ∃ s, (r.finalImage image g).slot? v = some s ∧ s < g.nodeCount + r.newLabels.length ∧
      r.stays image s = true := by
  by_cases hnew : role = .rightOnly
  · subst hnew
    obtain ⟨hslot, hlt⟩ := slot?_finalImage_of_rightOnly image g hv
    exact ⟨_, hslot, by omega, h.stays_of_le (by omega)⟩
  · have hsurvives : role.survives = true := by
      cases role <;> first | rfl | exact absurd rfl hnew | exact absurd hrole Bool.false_ne_true
    have hleft : role.onLeft = true := by
      cases role <;> first | rfl | exact absurd rfl hnew
    obtain ⟨hslot, hlt⟩ := h.slot?_eq hv hleft
    refine ⟨image.slot v, ?_, by omega, h.stays_of_survives hv hsurvives hslot⟩
    rw [slot?_finalImage_of_survives hv hsurvives, hslot]

theorem Placed.hasAliveSlot {g : Graph} (h : r.Placed image g.nodeCount) {v : Nat}
    {role : NodeRole} (hv : r.roleOf v = some role) (hrole : role.onRight = true) :
    HasAliveSlot (r.finalImage image g) (r.finalLabels mode image g) v := by
  obtain ⟨s, hslot, hs, hstays⟩ := h.finalImage_spec hv hrole
  obtain ⟨label, hlabel⟩ := exists_label_of_stays mode h hs hstays
  exact ⟨s, label, hslot, hlabel⟩

/-! ### All phases after the copy -/

/-- The phases after the copy. -/
def rework (r : Rule) (mode : Relabeling) (image : Images) (host : Arena) : Except Fault Graph := do
  let host ← r.changeLabels mode image host
  let host ← r.deleteEdges image host
  let (host, loose) ← r.deleteNodes image host
  let (host, image) ← r.addRightSide image host
  let host ← r.reroute image loose host
  return host.compact

theorem rewrite_eq_ok_iff {config : RewriteConfig} {t : GraphView} {mapping : List Nat}
    {g : Graph} :
    r.rewrite config t mapping = .ok g ↔ r.checkOccurrence t mapping = .ok () ∧
      r.rework config.relabeling (r.copyTarget config t mapping).2
        (r.copyTarget config t mapping).1 = .ok g := by
  rw [rewrite, bind_eq_ok_iff]
  exact ⟨fun ⟨_, hcheck, h⟩ => ⟨hcheck, h⟩, fun ⟨hcheck, h⟩ => ⟨(), hcheck, h⟩⟩

/-- A target that is copied as a whole is the host, and a rule node has the slot of its image. -/
theorem copyTarget_of_whole {config : RewriteConfig} (h : config.addEachComponent = false)
    (t : GraphView) (mapping : List Nat) : r.copyTarget config t mapping =
      (Arena.host t.toGraph, r.imagesAt mapping some) := by
  rw [copyTarget, h, if_neg Bool.false_ne_true, copyWhole, Arena.ofGraph_eq_host]

theorem checkRewrite_eq_ok_iff {config : RewriteConfig} :
    r.checkRewrite config = .ok () ↔ r.isConsistent = true ∧ config.validate = .ok () := by
  rw [checkRewrite]
  cases r.isConsistent
  · constructor
    · intro h
      cases h
    · rintro ⟨h, -⟩
      cases h
  · exact ⟨fun h => ⟨rfl, h⟩, fun h => h.2⟩

/-- The edges of a graph that were not given to left-only edges. -/
def untaken (g : Graph) (choices : List (RuleEdge × Nat)) : List Edge :=
  present (eraseSlots (removedBy choices) (g.edges.map some))

/-- The labels at the end. -/
def resultLabels (r : Rule) (mode : Relabeling) (image : Images) (g : Graph) : List String :=
  ((List.range g.nodeCount).filter (r.stays image)).map
    (fun s => r.labelAt mode image s (g.labels.getD s "")) ++ r.newLabels

/-- The edges at the end, between slots. -/
def resultEdges (r : Rule) (image : Images) (g : Graph) (choices : List (RuleEdge × Nat)) :
    List Edge :=
  ((untaken g choices).filter fun e => r.stays image e.source && r.stays image e.target) ++
    r.newEdges (r.finalImage image g) ++
    (r.looseEdges image (untaken g choices)).flatMap (r.copies (r.finalImage image g))

/-- The slots of edges at the end. -/
def finalEdges (r : Rule) (image : Images) (g : Graph) (choices : List (RuleEdge × Nat)) :
    List (Option Edge) :=
  dropEdges (r.touchesDeleted image) (eraseSlots (removedBy choices) (g.edges.map some)) ++
    (r.newEdges (r.finalImage image g)).map some ++
    ((r.looseEdges image (untaken g choices)).flatMap (r.copies (r.finalImage image g))).map some

theorem present_finalEdges (r : Rule) (image : Images) (g : Graph)
    (choices : List (RuleEdge × Nat)) :
    present (r.finalEdges image g choices) = r.resultEdges image g choices := by
  rw [finalEdges, present_append, present_append, present_map_some, present_map_some,
    present_dropEdges, resultEdges, untaken]
  simp only [touchesDeleted_eq, Bool.not_not]

theorem untaken_eq (g : Graph) (choices : List (RuleEdge × Nat)) :
    untaken g choices = ((List.finRange g.edges.length).filter fun j =>
      j.val ∉ removedBy choices).map fun j => g.edges[j] := by
  have hslots : eraseSlots (removedBy choices) (g.edges.map some) =
      (List.finRange g.edges.length).map fun j =>
        if j.val ∈ removedBy choices then none else some g.edges[j] := by
    refine List.ext_getElem (by simp [eraseSlots]) fun i hi hi' => ?_
    simp [eraseSlots]
  rw [untaken, hslots, present, List.filterMap_map, ← List.filterMap_eq_map',
    List.filterMap_filter]
  refine List.filterMap_congr fun j _ => ?_
  by_cases hj : j.val ∈ removedBy choices <;> simp [hj]

theorem mem_untaken {g : Graph} {choices : List (RuleEdge × Nat)} {e : Edge}
    (h : e ∈ untaken g choices) : e ∈ g.edges := by
  obtain ⟨i, hi⟩ := List.mem_iff_getElem?.mp (mem_present.mp h)
  rw [getElem?_eraseSlots, List.getElem?_map] at hi
  cases hget : g.edges[i]? with
  | none => simp [hget] at hi
  | some e' =>
    rw [hget, Option.map_some, Option.map_some, Option.some.injEq] at hi
    split at hi
    · cases hi
    · cases hi
      exact List.mem_of_getElem? hget

theorem mem_looseEdges {edges : List Edge} {d : LooseEdge} (h : d ∈ r.looseEdges image edges) :
    ∃ e ∈ edges, r.roleOf d.source = some .leftOnly ∧ e.touches (image.slot d.source) = true ∧
      d.survivor = e.other (image.slot d.source) ∧ d.label = e.label ∧
      r.stays image d.survivor = true := by
  obtain ⟨pair, hpair, hd⟩ := List.mem_flatMap.mp h
  obtain ⟨e, he, hloose⟩ := List.mem_filterMap.mp hd
  obtain ⟨he, htouch⟩ := List.mem_filter.mp he
  obtain ⟨hrole, hslot⟩ := mem_deletedPairs.mp hpair
  rw [looseEdge?] at hloose
  split at hloose
  · cases hloose
  · next hany =>
    cases hloose
    rw [← hslot] at htouch hany ⊢
    exact ⟨e, he, hrole, htouch, rfl, rfl, by rw [stays, Bool.eq_false_iff.mpr hany]; rfl⟩

theorem touches_other_lt {g : Graph} {e : Edge} (he : e ∈ g.edges) (v : Nat) :
    e.other v < g.nodeCount := by
  have := g.endpoints_lt e he
  rw [Edge.other, Graph.nodeCount]
  split <;> omega

theorem reduceOption_finalLabels (r : Rule) (mode : Relabeling) (image : Images) (g : Graph) :
    (r.finalLabels mode image g).reduceOption = r.resultLabels mode image g := by
  have hslots : r.remainingLabels mode image g = (List.range g.nodeCount).map fun s =>
      if r.stays image s then some (r.labelAt mode image s (g.labels.getD s "")) else none := by
    refine List.ext_getElem? fun s => ?_
    rw [remainingLabels, getElem?_clearSlots, getElem?_mapLabels, List.getElem?_map,
      List.getElem?_map, Graph.nodeCount]
    rcases Nat.lt_or_ge s g.labels.length with hs | hs
    · rw [List.getElem?_range hs, List.getElem?_eq_getElem hs]
      simp only [Option.map_some, stays, List.getD_eq_getElem?_getD, List.getElem?_eq_getElem hs]
      cases (r.deletedPairs image).any fun d => d.1 == s <;> rfl
    · have hrange : (List.range g.labels.length).length ≤ s := by rwa [List.length_range]
      rw [List.getElem?_eq_none hs, List.getElem?_eq_none hrange]
      rfl
  have hnew : (r.newLabels.map some).reduceOption = r.newLabels := by simp [List.reduceOption]
  rw [finalLabels, List.reduceOption_append, hslots, resultLabels, hnew, List.reduceOption,
    List.filterMap_map, ← List.filterMap_eq_map', List.filterMap_filter]
  rfl

/-- The endpoints of the edges at the end are nodes that stay. -/
theorem resultEdges_alive (hr : r.isConsistent = true) {g : Graph} (h : r.Placed image g.nodeCount)
    {choices : List (RuleEdge × Nat)} {e : Edge} (he : e ∈ r.resultEdges image g choices) :
    ∀ s, s = e.source ∨ s = e.target →
      s < g.nodeCount + r.newLabels.length ∧ r.stays image s = true := by
  have hslot : ∀ {v role}, r.roleOf v = some role → role.onRight = true →
      (r.finalImage image g).slot v < g.nodeCount + r.newLabels.length ∧
        r.stays image ((r.finalImage image g).slot v) = true := by
    intro v role hv hrole
    obtain ⟨s, hs, hlt, hstays⟩ := h.finalImage_spec hv hrole
    rw [Images.slot, hs]
    exact ⟨hlt, hstays⟩
  rcases List.mem_append.mp he with he | he
  · rcases List.mem_append.mp he with he | he
    · obtain ⟨hmem, hstays⟩ := List.mem_filter.mp he
      have hlt := g.endpoints_lt e (mem_untaken hmem)
      rw [Bool.and_eq_true] at hstays
      rw [Graph.nodeCount]
      rintro s (rfl | rfl)
      · exact ⟨by omega, hstays.1⟩
      · exact ⟨by omega, hstays.2⟩
    · obtain ⟨e', he', rfl⟩ := List.mem_map.mp he
      obtain ⟨hmem, hrole⟩ := List.mem_filter.mp he'
      obtain ⟨a, b, ha, hb, hjoin⟩ := exists_roles_of_isConsistent hr hmem
      rw [decide_eq_true_eq] at hrole
      rw [hrole, EdgeRole.mayJoin, Bool.and_eq_true] at hjoin
      rintro s (rfl | rfl)
      · exact hslot ha hjoin.1
      · exact hslot hb hjoin.2
  · obtain ⟨d, hd, hcopy⟩ := List.mem_flatMap.mp he
    obtain ⟨directive, hdirective, rfl⟩ := List.mem_map.mp hcopy
    obtain ⟨role, hv, hrole⟩ := directive_target_of_isConsistent hr
      (List.mem_of_mem_filter (List.mem_of_mem_filter hdirective))
    obtain ⟨e', he', -, -, hsurvivor, -, hstays⟩ := mem_looseEdges hd
    rintro s (rfl | rfl)
    · exact hslot hv hrole
    · refine ⟨?_, hstays⟩
      have := touches_other_lt (mem_untaken he') (image.slot d.source)
      dsimp only
      omega

/-! ### The phases after the copy -/

theorem exists_label_of_lt {g : Graph} {s : Nat} (hs : s < g.nodeCount) :
    ∃ label, ((g.labels.map some)[s]?).join = some label := by
  rw [Arena.join_getElem?_map_some]
  exact ⟨_, List.getElem?_eq_getElem hs⟩

theorem exists_changedLabel_of_lt (r : Rule) (mode : Relabeling) (image : Images) {g : Graph}
    {s : Nat} (hs : s < g.nodeCount) :
    ∃ label, ((mapLabels (r.labelAt mode image) (g.labels.map some))[s]?).join = some label := by
  rw [getElem?_mapLabels, List.getElem?_map, List.getElem?_eq_getElem hs]
  exact ⟨_, rfl⟩

/-- If every edge of the left side gets an edge, no phase fails. -/
theorem rework_eq_compact (hr : r.isConsistent = true) (mode : Relabeling) {g : Graph}
    (h : r.Placed image g.nodeCount) {choices : List (RuleEdge × Nat)}
    (hchoices : r.choices image (g.edges.map some) = some choices) :
    r.rework mode image (Arena.host g) =
      .ok (Arena.ofSlots (r.finalLabels mode image g) (r.finalEdges image g choices)).compact := by
  have hchange := changeLabels_eq hr h (fun s hs => exists_label_of_lt hs) mode (g.edges.map some)
  have halive := fun s (hs : s < g.nodeCount) => r.exists_changedLabel_of_lt mode image hs
  obtain ⟨hsome, -⟩ := deleteEdges_eq hr h halive (g.edges.map some)
  let taken := eraseSlots (removedBy choices) (g.edges.map some)
  have hdelete := deleteNodes_eq h halive taken
  have hedges : ∀ e : Edge, some e ∈ dropEdges (r.touchesDeleted image) taken →
      e.source < (r.remainingLabels mode image g).length ∧
        e.target < (r.remainingLabels mode image g).length := by
    intro e he
    rw [length_remainingLabels]
    have hmem := mem_present.mpr he
    rw [present_dropEdges] at hmem
    exact g.endpoints_lt e (mem_untaken (List.mem_of_mem_filter hmem))
  have hright := addRightSide_eq (r := r) h.length_eq hedges (by
    intro e he hrole v hv
    rw [length_remainingLabels]
    obtain ⟨a, b, ha, hb, hjoin⟩ := exists_roles_of_isConsistent hr he
    rw [hrole, EdgeRole.mayJoin, Bool.and_eq_true] at hjoin
    rcases hv with rfl | rfl
    · exact h.hasAliveSlot ha hjoin.1
    · exact h.hasAliveSlot hb hjoin.2)
  rw [length_remainingLabels] at hright
  have hsurvivor : ∀ d ∈ r.looseEdges image (untaken g choices),
      ∃ label, ((r.finalLabels mode image g)[d.survivor]?).join = some label := by
    intro d hd
    obtain ⟨e, he, -, -, hsurvivor, -, hstays⟩ := mem_looseEdges hd
    have := touches_other_lt (mem_untaken he) (image.slot d.source)
    exact exists_label_of_stays mode h (by omega) hstays
  have htarget : ∀ d ∈ r.directives,
      HasAliveSlot (r.finalImage image g) (r.finalLabels mode image g) d.pasteTarget := by
    intro d hd
    obtain ⟨role, hv, hrole⟩ := directive_target_of_isConsistent hr hd
    exact h.hasAliveSlot hv hrole
  have hreroute := reroute_eq r hsurvivor htarget
  rw [rework, Arena.host, hchange]
  simp only [bind, Except.bind, hsome choices hchoices]
  rw [hdelete]
  dsimp only
  rw [← remainingLabels, hright]
  dsimp only
  rw [← finalLabels, ← untaken, ← finalImage, hreroute]
  rfl

/-- If some edge of the left side gets none, the phase that removes edges fails. -/
theorem exists_rework_eq_error (hr : r.isConsistent = true) (mode : Relabeling) {g : Graph}
    (h : r.Placed image g.nodeCount) (hchoices : r.choices image (g.edges.map some) = none) :
    ∃ fault, r.rework mode image (Arena.host g) = .error fault := by
  have hchange := changeLabels_eq hr h (fun s hs => exists_label_of_lt hs) mode (g.edges.map some)
  have halive := fun s (hs : s < g.nodeCount) => r.exists_changedLabel_of_lt mode image hs
  obtain ⟨fault, hfault⟩ := (deleteEdges_eq hr h halive (g.edges.map some)).2 hchoices
  refine ⟨fault, ?_⟩
  rw [rework, Arena.host, hchange]
  simp only [bind, Except.bind, hfault]

/-- What remains is numbered by the ranks of the slots that stay. -/
theorem edges_compact_final (hr : r.isConsistent = true) (mode : Relabeling) {g : Graph}
    (h : r.Placed image g.nodeCount) (choices : List (RuleEdge × Nat)) :
    (Arena.ofSlots (r.finalLabels mode image g) (r.finalEdges image g choices)).compact.edges =
      (r.resultEdges image g choices).map (Edge.mapNodes (rank (r.stays image))) := by
  have halive : ∀ e ∈ r.resultEdges image g choices, ∀ s, s = e.source ∨ s = e.target →
      ∀ u ≤ s, Arena.alive (r.finalLabels mode image g) u = r.stays image u := by
    intro e he s hs u hu
    have := (resultEdges_alive hr h he s hs).1
    exact alive_finalLabels r mode image g h (by omega)
  rw [Arena.edges_compact_ofSlots, present_finalEdges]
  · refine List.map_congr_left fun e he => ?_
    rw [Edge.mapNodes, Edge.mapNodes,
      rank_congr fun u hu => halive e he _ (.inl rfl) u (Nat.le_of_lt hu),
      rank_congr fun u hu => halive e he _ (.inr rfl) u (Nat.le_of_lt hu)]
  · intro e he
    have he := mem_present.mpr he
    rw [present_finalEdges] at he
    rw [halive e he _ (.inl rfl) _ (Nat.le_refl _), halive e he _ (.inr rfl) _ (Nat.le_refl _)]
    exact ⟨(resultEdges_alive hr h he _ (.inl rfl)).2, (resultEdges_alive hr h he _ (.inr rfl)).2⟩

/-- **The phases after the copy** succeed when every edge of the left side gets an edge. -/
theorem rework_eq (hr : r.isConsistent = true) (mode : Relabeling) {g : Graph}
    (h : r.Placed image g.nodeCount) :
    (∀ choices, r.choices image (g.edges.map some) = some choices →
      ∃ g', r.rework mode image (Arena.host g) = .ok g' ∧
        g'.labels = r.resultLabels mode image g ∧
        g'.edges = (r.resultEdges image g choices).map (Edge.mapNodes (rank (r.stays image)))) ∧
    (r.choices image (g.edges.map some) = none →
      ∃ fault, r.rework mode image (Arena.host g) = .error fault) := by
  refine ⟨fun choices hchoices => ?_, exists_rework_eq_error hr mode h⟩
  refine ⟨_, rework_eq_compact hr mode h hchoices, ?_, edges_compact_final hr mode h choices⟩
  exact (Arena.labels_compact_ofSlots _ _).trans (reduceOption_finalLabels ..)

/-- Where the phases succeed, every edge of the left side gets an edge. -/
theorem Placed.exists_choices_of_rework (hr : r.isConsistent = true) {mode : Relabeling} {g : Graph}
    (h : r.Placed image g.nodeCount) {result : Graph}
    (hresult : r.rework mode image (Arena.host g) = .ok result) :
    ∃ choices, r.choices image (g.edges.map some) = some choices := by
  cases hchoices : r.choices image (g.edges.map some) with
  | some choices => exact ⟨choices, rfl⟩
  | none =>
    obtain ⟨fault, hfault⟩ := (rework_eq hr mode h).2 hchoices
    cases hfault.symm.trans hresult

end Rule

theorem applyRule_eq_ok_iff {r : Rule} {config : RewriteConfig} {t : GraphView} {mapping : List Nat}
    {g : Graph} : applyRule r config t mapping = .ok g ↔
      r.isConsistent = true ∧ config.validate = .ok () ∧ r.rewrite config t mapping = .ok g := by
  rw [applyRule, bind_eq_ok_iff]
  constructor
  · rintro ⟨⟨⟩, hcheck, h⟩
    exact ⟨(Rule.checkRewrite_eq_ok_iff.mp hcheck).1, (Rule.checkRewrite_eq_ok_iff.mp hcheck).2, h⟩
  · rintro ⟨hr, hconfig, h⟩
    exact ⟨(), Rule.checkRewrite_eq_ok_iff.mpr ⟨hr, hconfig⟩, h⟩

end GraphGrammar
