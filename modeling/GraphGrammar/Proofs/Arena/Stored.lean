import GraphGrammar.Graph.SlotTable
import GraphGrammar.Proofs.Arena.Edits
import GraphGrammar.Proofs.Calls
import GraphGrammar.Proofs.SortedSet

/-!
# Stored arenas and arenas

A stored arena is in step if its edges join nodes that are there and if in every slot of a node,
also in that of one that is gone, exactly the edges are entered that touch the node and are there.
It then stores the arena with its slots. Calls on a stored arena in step change its slots as the
operations on arenas do, leave it in step, and use none of its slots a second time.

## Main definitions

* `GraphGrammar.SlotTable.labelSlots`, `edgeSlots`, `arena` — what is stored.
* `GraphGrammar.SlotTable.InStep`, `GraphGrammar.SlotTable.Evolves`.
* `GraphGrammar.SlotTable.Becomes` — what a call leads to.

## Main results

* `GraphGrammar.SlotTable.InStep.arena_eq` — the arena that is stored.
* `GraphGrammar.SlotTable.InStep.becomes_append`, `exists_perform_addEdge`,
  `exists_perform_setLabel`, `exists_perform_removeEdge`, `exists_perform_removeNode`,
  `exists_perform_extend` — the calls. -/

namespace GraphGrammar

/-! ### Lists with an entry changed -/

section

variable {α β : Type} {f : α → α} {g : α → β} {l : List α} {i : Nat}

theorem map_modify_of_eq (h : ∀ a, g (f a) = g a) : (l.modify i f).map g = l.map g := by
  refine List.ext_getElem? fun j => ?_
  rw [List.getElem?_map, List.getElem?_map, List.getElem?_modify]
  split <;> cases l[j]? <;> simp [h]

theorem map_modify_eq_set {b : β} (h : ∀ a, l[i]? = some a → g (f a) = b) :
    (l.modify i f).map g = (l.map g).set i b := by
  refine List.ext_getElem? fun j => ?_
  rw [List.getElem?_map, List.getElem?_modify, List.getElem?_set, List.length_map]
  by_cases hij : i = j
  · subst hij
    by_cases hi : i < l.length
    · simp [hi, ← h _ (List.getElem?_eq_getElem hi)]
    · simp [hi]
  · simp [hij]

/-- Both endpoints of an edge are changed, the one endpoint of a self-loop twice. -/
theorem getElem?_modify_ends (hf : ∀ a, f (f a) = f a) (e : Edge) (v : Nat) :
    ((l.modify e.source f).modify e.target f)[v]? =
      if e.touches v then (l[v]?).map f else l[v]? := by
  rw [List.getElem?_modify, List.getElem?_modify, Edge.touches]
  by_cases hs : e.source = v <;> by_cases ht : e.target = v <;> cases l[v]? <;> simp [hs, ht, hf]

end

/-! ### Numbers that are answered -/

/-- Nodes whose flags are set are added one after the other, and numbered as they come. -/
theorem run_mapM_kept {σ ε α : Type} (add : String → ExceptT ε (StateM σ) Nat)
    (state : List String → σ) (start : Nat)
    (hadd : ∀ labels label, (add label).run.run (state labels) =
      (.ok (start + labels.length), state (labels ++ [label])))
    (keep : α → Bool) (label : α → String) (l : List α) (labels : List String) :
    (l.mapM fun a => if keep a then some <$> add (label a) else return none).run.run
        (state labels) =
      (.ok (numberKept (start + labels.length) (l.map keep)),
        state (labels ++ (l.filter keep).map label)) := by
  induction l generalizing labels with
  | nil =>
    simp only [List.filter_nil, List.map_nil, List.append_nil]
    rfl
  | cons a l ih =>
    rw [List.mapM_cons, List.map_cons, List.filter_cons]
    cases hkeep : keep a with
    | true =>
      have hfirst : (some <$> add (label a)).run.run (state labels) =
          (.ok (some (start + labels.length)), state (labels ++ [label a])) := by
        rw [map_eq_pure_bind, run_bind_of_ok (hadd labels (label a))]
        rfl
      rw [if_pos rfl, run_bind_of_ok hfirst, run_bind_of_ok (ih (labels ++ [label a])), if_pos rfl,
        List.length_append, List.length_singleton, List.append_assoc, List.map_cons]
      rfl
    | false =>
      rw [if_neg Bool.false_ne_true, pure_bind, run_bind_of_ok (ih labels),
        if_neg Bool.false_ne_true]
      rfl

namespace NodeSlot

theorem enter_enter (i : Nat) (slot : NodeSlot) : (slot.enter i).enter i = slot.enter i := by
  have hset : (slot.incident.insert i).insert i = slot.incident.insert i :=
    SortedSet.eq_of_mem_iff fun x => by rw [SortedSet.mem_insert, SortedSet.mem_insert]; tauto
  rw [enter, enter, hset]

theorem strike_strike (i : Nat) (slot : NodeSlot) : (slot.strike i).strike i = slot.strike i := by
  have hset : (slot.incident.erase i).erase i = slot.incident.erase i :=
    SortedSet.eq_of_mem_iff fun x => by rw [SortedSet.mem_erase, SortedSet.mem_erase]; tauto
  rw [strike, strike, hset]

/-- The label in the slot, if the node is still there. -/
def label? (slot : NodeSlot) : Option String := if slot.isAlive then some slot.label else none

/-- What an arena keeps of the slot. -/
def arenaNode? (slot : NodeSlot) : Option ArenaNode :=
  if slot.isAlive then some ⟨slot.label, slot.incident.toList⟩ else none

end NodeSlot

/-- The edge in the slot, if it is still there. -/
def EdgeSlot.edge? (slot : EdgeSlot) : Option Edge := if slot.isAlive then some slot.edge else none

namespace SlotCall

variable {α β : Type} {call : SlotCall α} {s s' : SlotTable}

theorem perform_bind_of_ok {a : α} (h : call.perform s = (.ok a, s')) (next : α → SlotCall β) :
    (call >>= next).perform s = (next a).perform s' := run_bind_of_ok h next

theorem perform_bind_of_error {fault : Fault} (h : call.perform s = (.error fault, s'))
    (next : α → SlotCall β) : (call >>= next).perform s = (.error fault, s') :=
  run_bind_of_error h next

theorem perform_discard_of_ok {a : α} (h : call.perform s = (.ok a, s')) :
    (discard call).perform s = (.ok (), s') :=
  perform_bind_of_ok h fun _ => pure ()

theorem perform_discard_of_error {fault : Fault} (h : call.perform s = (.error fault, s')) :
    (discard call).perform s = (.error fault, s') :=
  perform_bind_of_error h fun _ => pure ()

end SlotCall

namespace SlotTable

/-- The labels in the slots of the nodes that are still there. -/
def labelSlots (s : SlotTable) : List (Option String) := s.nodes.map NodeSlot.label?

/-- The edges in the slots of those that are still there. -/
def edgeSlots (s : SlotTable) : List (Option Edge) := s.edges.map EdgeSlot.edge?

/-- The arena that is stored. -/
def arena (s : SlotTable) : Arena := ⟨s.nodes.map NodeSlot.arenaNode?, s.edgeSlots⟩

/-- Edges join nodes that are still there, and at every node, there or not, exactly the edges are
entered that touch it and are still there. -/
structure InStep (s : SlotTable) : Prop where
  /-- Edges join nodes. -/
  joins : JoinsNodes s.labelSlots s.edgeSlots
  /-- Edges are entered at their endpoints. -/
  mem_incident_iff : ∀ {v : Nat} {slot : NodeSlot}, s.nodes[v]? = some slot → ∀ {i : Nat},
    i ∈ slot.incident.toList ↔ i ∈ touching s.edgeSlots v

/-- The second arena comes from the first one without any slot being used a second time. -/
structure Evolves (s s' : SlotTable) : Prop where
  /-- Slots of nodes are only added. -/
  nodes_le : s.nodes.length ≤ s'.nodes.length
  /-- The slot of a node that is gone stays as it is. -/
  node_gone : ∀ (v : Nat) (slot : NodeSlot), s.nodes[v]? = some slot → slot.isAlive = false →
    s'.nodes[v]? = some slot
  /-- The slot of an edge keeps its edge, and an edge that is gone does not come back. -/
  edge_kept : ∀ (i : Nat) (slot : EdgeSlot), s.edges[i]? = some slot →
    ∃ slot' : EdgeSlot, s'.edges[i]? = some slot' ∧ slot'.edge = slot.edge ∧
      (slot'.isAlive = true → slot.isAlive = true)

variable {s s' s'' : SlotTable}

theorem Evolves.refl (s : SlotTable) : s.Evolves s :=
  ⟨Nat.le_refl _, fun _ _ h _ => h, fun _ slot h => ⟨slot, h, rfl, id⟩⟩

theorem Evolves.trans (h : s.Evolves s') (h' : s'.Evolves s'') : s.Evolves s'' where
  nodes_le := Nat.le_trans h.nodes_le h'.nodes_le
  node_gone v slot hslot hgone := h'.node_gone v slot (h.node_gone v slot hslot hgone) hgone
  edge_kept i slot hslot := by
    obtain ⟨slot', hslot', hedge, halive⟩ := h.edge_kept i slot hslot
    obtain ⟨slot'', hslot'', hedge', halive'⟩ := h'.edge_kept i slot' hslot'
    exact ⟨slot'', hslot'', hedge'.trans hedge, halive ∘ halive'⟩

/-! ### The arena that is stored -/

theorem getElem?_labelSlots (s : SlotTable) (v : Nat) :
    s.labelSlots[v]? = (s.nodes[v]?).map NodeSlot.label? := List.getElem?_map ..

theorem getElem?_edgeSlots (s : SlotTable) (i : Nat) :
    s.edgeSlots[i]? = (s.edges[i]?).map EdgeSlot.edge? := List.getElem?_map ..

theorem InStep.incident_eq (h : s.InStep) {v : Nat} {slot : NodeSlot}
    (hslot : s.nodes[v]? = some slot) : slot.incident.toList = touching s.edgeSlots v :=
  List.Pairwise.eq_of_mem_iff slot.incident.ascending (List.pairwise_lt_range.filter _) fun _ =>
    h.mem_incident_iff hslot

/-- **A stored arena that is in step** stores the arena with its slots. -/
theorem InStep.arena_eq (h : s.InStep) : s.arena = Arena.ofSlots s.labelSlots s.edgeSlots := by
  refine Arena.eq_ofSlots (fun v => ?_) rfl
  rw [arena, List.getElem?_map, getElem?_labelSlots]
  cases hslot : s.nodes[v]? with
  | none => rfl
  | some slot =>
    rw [Option.map_some, Option.map_some, Option.map_some, NodeSlot.arenaNode?, NodeSlot.label?,
      h.incident_eq hslot]
    split <;> rfl

theorem alive_labelSlots (s : SlotTable) (v : Nat) :
    Arena.alive s.labelSlots v = s.holdsNode v := by
  rw [Arena.alive, getElem?_labelSlots, holdsNode]
  cases s.nodes[v]? with
  | none => rfl
  | some slot =>
    rw [Option.map_some, Option.join_some, NodeSlot.label?, Option.any_some]
    cases slot.isAlive <;> rfl

theorem node_arena (s : SlotTable) (v : Nat) : s.arena.node v =
    (s.node v).map fun slot => ⟨slot.label, slot.incident.toList⟩ := by
  rw [Arena.node, arena, List.getElem?_map, node]
  cases s.nodes[v]? with
  | none => rfl
  | some slot =>
    rw [Option.map_some, Option.join_some, NodeSlot.arenaNode?, Option.filter_some]
    cases slot.isAlive <;> rfl

theorem edge_arena (s : SlotTable) (i : Nat) : s.arena.edge i = s.edge i := by
  rw [Arena.edge, arena, getElem?_edgeSlots, edge]
  cases s.edges[i]? with
  | none => rfl
  | some slot =>
    rw [Option.map_some, Option.join_some, EdgeSlot.edge?, Option.filter_some]
    cases slot.isAlive <;> rfl

theorem holdsNode_arena (s : SlotTable) (v : Nat) : s.arena.holdsNode v = s.holdsNode v := by
  rw [Arena.holdsNode, arena, List.getElem?_map, holdsNode]
  cases s.nodes[v]? with
  | none => rfl
  | some slot =>
    rw [Option.map_some, Option.join_some, NodeSlot.arenaNode?, Option.any_some]
    cases slot.isAlive <;> rfl

theorem node_eq_ok_iff {v : Nat} {slot : NodeSlot} :
    s.node v = .ok slot ↔ s.nodes[v]? = some slot ∧ slot.isAlive = true := by
  rw [node, ← Option.filter_eq_some_iff]
  cases (s.nodes[v]?).filter NodeSlot.isAlive <;> simp

theorem edge_eq_ok_iff {i : Nat} {e : Edge} : s.edge i = .ok e ↔ s.edges[i]? = some ⟨true, e⟩ := by
  rw [edge]
  cases s.edges[i]? with
  | none => simp
  | some found =>
    obtain ⟨isAlive, found⟩ := found
    rw [Option.filter_some]
    cases isAlive <;> simp

theorem holdsNode_eq_true_iff {v : Nat} : s.holdsNode v = true ↔ ∃ slot, s.node v = .ok slot := by
  rw [holdsNode, Option.any_eq_true]
  simp only [node_eq_ok_iff]

/-! ### Reading in calls -/

theorem perform_ofExcept {α : Type} (result : Except Fault α) (s : SlotTable) :
    (MonadExcept.ofExcept result : SlotCall α).perform s = (result, s) := by
  cases result <;> rfl

theorem perform_readNode (s : SlotTable) (v : Nat) : (readNode v).perform s = (s.node v, s) :=
  perform_ofExcept (s.node v) s

theorem perform_readEdge (s : SlotTable) (i : Nat) : (readEdge i).perform s = (s.edge i, s) :=
  perform_ofExcept (s.edge i) s

/-! ### What calls lead to -/

/-- The second arena comes from the first one and is in step. It has the given slots. -/
structure Becomes (s : SlotTable) (labels : List (Option String)) (edges : List (Option Edge))
    (s' : SlotTable) : Prop where
  /-- The arena is in step. -/
  inStep : s'.InStep
  /-- No slot is used a second time. -/
  evolves : s.Evolves s'
  /-- The labels. -/
  labelSlots_eq : s'.labelSlots = labels
  /-- The edges. -/
  edgeSlots_eq : s'.edgeSlots = edges

theorem Becomes.arena_eq {labels : List (Option String)} {edges : List (Option Edge)}
    (h : s.Becomes labels edges s') : s'.arena = Arena.ofSlots labels edges := by
  rw [h.inStep.arena_eq, h.labelSlots_eq, h.edgeSlots_eq]

namespace InStep

variable (h : s.InStep)

include h

theorem lt_of_mem_edgeSlots {e : Edge} (he : some e ∈ s.edgeSlots) :
    e.source < s.labelSlots.length ∧ e.target < s.labelSlots.length :=
  ⟨Arena.lt_of_alive (h.joins e he).1, Arena.lt_of_alive (h.joins e he).2⟩

/-- **Nodes are added.** -/
theorem becomes_append (labels : List String) :
    s.Becomes (s.labelSlots ++ labels.map some) s.edgeSlots
      ⟨s.nodes ++ labels.map NodeSlot.fresh, s.edges⟩ := by
  have hlabels : labelSlots ⟨s.nodes ++ labels.map NodeSlot.fresh, s.edges⟩ =
      s.labelSlots ++ labels.map some := by
    rw [labelSlots, List.map_append, List.map_map]
    rfl
  refine ⟨⟨?_, fun {v slot} hslot i => ?_⟩, ⟨?_, fun v slot hslot _ => ?_,
    fun i slot hslot => ⟨slot, hslot, rfl, id⟩⟩, hlabels, rfl⟩
  · rw [hlabels]
    have hjoins := (SlotStep.grow labels [] (joinsNodes_nil _)).joinsNodes h.joins
    rwa [List.map_nil, List.append_nil] at hjoins
  · rcases Nat.lt_or_ge v s.nodes.length with hv | hv
    · rw [List.getElem?_append_left hv] at hslot
      exact h.mem_incident_iff hslot
    · rw [List.getElem?_append_right hv, List.getElem?_map, Option.map_eq_some_iff] at hslot
      obtain ⟨label, -, rfl⟩ := hslot
      have hfree : touching s.edgeSlots v = [] :=
        Arena.touching_eq_nil (n := s.labelSlots.length) (by simpa [labelSlots] using hv)
          fun e => h.lt_of_mem_edgeSlots
      show i ∈ [] ↔ i ∈ touching s.edgeSlots v
      rw [hfree]
  · simp
  · rw [List.getElem?_append_left (List.getElem?_eq_some_iff.mp hslot).1, hslot]

/-- The slots of both endpoints of an edge are changed, and the slots of the edges. -/
theorem becomes_modify_ends {e : Edge} (hs : s.holdsNode e.source = true)
    (ht : s.holdsNode e.target = true) {f : NodeSlot → NodeSlot} (hf : ∀ slot, f (f slot) = f slot)
    (hlabel : ∀ slot, (f slot).label? = slot.label?) {edges' : List EdgeSlot}
    {slots' : List (Option Edge)} (hedges : edges'.map EdgeSlot.edge? = slots')
    (hkept : ∀ (i : Nat) (slot : EdgeSlot), s.edges[i]? = some slot →
      ∃ slot' : EdgeSlot, edges'[i]? = some slot' ∧ slot'.edge = slot.edge ∧
        (slot'.isAlive = true → slot.isAlive = true))
    (hjoins : JoinsNodes s.labelSlots slots')
    (hends : ∀ {v : Nat} {slot : NodeSlot}, s.nodes[v]? = some slot → e.touches v = true →
      ∀ {i : Nat}, i ∈ (f slot).incident.toList ↔ i ∈ touching slots' v)
    (hothers : ∀ {v : Nat}, e.touches v = false → touching slots' v = touching s.edgeSlots v) :
    s.Becomes s.labelSlots slots' ⟨(s.nodes.modify e.source f).modify e.target f, edges'⟩ := by
  have hlabels : labelSlots ⟨(s.nodes.modify e.source f).modify e.target f, edges'⟩ =
      s.labelSlots := by
    rw [labelSlots, map_modify_of_eq hlabel, map_modify_of_eq hlabel, ← labelSlots]
  -- The endpoints are there, so that what is gone is not changed.
  have hgone : ∀ {v : Nat} {slot : NodeSlot}, s.nodes[v]? = some slot → slot.isAlive = false →
      e.touches v = false := fun {v slot} hslot hdead => by
    have hv : s.holdsNode v = false := by rw [holdsNode, hslot, Option.any_some, hdead]
    rw [Edge.touches, Bool.or_eq_false_iff, beq_eq_false_iff_ne, beq_eq_false_iff_ne]
    constructor
    · rintro rfl
      exact Bool.false_ne_true (hv.symm.trans hs)
    · rintro rfl
      exact Bool.false_ne_true (hv.symm.trans ht)
  refine ⟨⟨?_, fun {v slot} hslot i => ?_⟩, ⟨by simp, fun v slot hslot hdead => ?_, hkept⟩,
    hlabels, hedges⟩
  · rwa [hlabels, edgeSlots, hedges]
  · rw [edgeSlots, hedges]
    rw [getElem?_modify_ends hf] at hslot
    cases htouches : e.touches v with
    | true =>
      rw [htouches, if_pos rfl] at hslot
      obtain ⟨old, hold, rfl⟩ := Option.map_eq_some_iff.mp hslot
      exact hends hold htouches
    | false =>
      rw [htouches, if_neg Bool.false_ne_true] at hslot
      rw [hothers htouches]
      exact h.mem_incident_iff hslot
  · rw [getElem?_modify_ends hf, hgone hslot hdead, if_neg Bool.false_ne_true, hslot]

/-- **An edge between two nodes is pushed.** It is entered at both. -/
theorem exists_perform_pushEdge {e : Edge} (hs : s.holdsNode e.source = true)
    (ht : s.holdsNode e.target = true) :
    ∃ s', (pushEdge e).perform s = (.ok s.edges.length, s') ∧
      s.Becomes s.labelSlots (s.edgeSlots ++ [some e]) s' := by
  refine ⟨_, rfl, h.becomes_modify_ends hs ht (NodeSlot.enter_enter _) (fun _ => rfl)
    List.map_append (fun i slot hslot => ⟨slot, ?_, rfl, id⟩) (fun e' he' => ?_)
    (fun hslot htouches i => ?_) fun htouches => ?_⟩
  · rw [List.getElem?_append_left (List.getElem?_eq_some_iff.mp hslot).1, hslot]
  · rcases List.mem_append.mp he' with he' | he'
    · exact h.joins e' he'
    · cases List.mem_singleton.mp he'
      rw [alive_labelSlots, alive_labelSlots]
      exact ⟨hs, ht⟩
  · show i ∈ (SortedSet.insert s.edges.length _).toList ↔ i ∈ touching (s.edgeSlots ++ [some e]) _
    rw [SortedSet.mem_insert, h.mem_incident_iff hslot, touching_append_singleton, if_pos htouches,
      List.mem_append, List.mem_singleton, or_comm, edgeSlots, List.length_map]
  · exact (touching_append_singleton ..).trans (by rw [htouches]; exact List.append_nil _)

/-- **An edge between two nodes is added.** -/
theorem exists_perform_addEdge {e : Edge} (hs : s.holdsNode e.source = true)
    (ht : s.holdsNode e.target = true) :
    ∃ s', (addEdge e).perform s = (.ok s.edges.length, s') ∧
      s.Becomes s.labelSlots (s.edgeSlots ++ [some e]) s' := by
  obtain ⟨slot, hslot⟩ := holdsNode_eq_true_iff.mp hs
  obtain ⟨slot', hslot'⟩ := holdsNode_eq_true_iff.mp ht
  have hsource : (readNode e.source).perform s = (.ok slot, s) := hslot ▸ perform_readNode ..
  have htarget : (readNode e.target).perform s = (.ok slot', s) := hslot' ▸ perform_readNode ..
  obtain ⟨s', hpush, hbecomes⟩ := h.exists_perform_pushEdge hs ht
  refine ⟨s', ?_, hbecomes⟩
  rw [addEdge, SlotCall.perform_bind_of_ok hsource, SlotCall.perform_bind_of_ok htarget, hpush]

/-- **An edge that is there is removed**, and struck out at both endpoints. -/
theorem exists_perform_removeEdge {i : Nat} {e : Edge} (he : s.edge i = .ok e) :
    ∃ s', (removeEdge i).perform s = (.ok e, s') ∧
      s.Becomes s.labelSlots (s.edgeSlots.set i none) s' := by
  have hread : (readEdge i).perform s = (.ok e, s) := he ▸ perform_readEdge s i
  have hslot : (s.edgeSlots[i]?).join = some e := by
    rw [getElem?_edgeSlots, edge_eq_ok_iff.mp he]
    rfl
  obtain ⟨hs, ht⟩ := h.joins.of_getElem? hslot
  rw [alive_labelSlots] at hs ht
  refine ⟨_, SlotCall.perform_bind_of_ok hread _, h.becomes_modify_ends hs ht
    (NodeSlot.strike_strike _) (fun _ => rfl) (map_modify_eq_set fun _ _ => rfl)
    (fun j slot hslot => ?_) ((SlotStep.dropEdge i).joinsNodes h.joins)
    (fun hslot htouches j => ?_) fun {v} htouches => ?_⟩
  · refine ⟨if i = j then { slot with isAlive := false } else slot, ?_, ?_⟩
    · rw [List.getElem?_modify, hslot]
      rfl
    · split <;> simp
  · have hnodup : ∀ v, (touching s.edgeSlots v).Nodup := fun v => nodup_slotsWhere _ _
    rw [touching_set_none, (hnodup _).mem_erase_iff, ← h.mem_incident_iff hslot]
    exact SortedSet.mem_erase
  · refine (touching_set_none ..).trans (List.erase_of_not_mem fun hmem => ?_)
    obtain ⟨e', he', htouches'⟩ := mem_touching.mp hmem
    cases hslot.symm.trans he'
    exact Bool.false_ne_true (htouches.symm.trans htouches')

/-- The slot of one node is changed, but not what is entered there. -/
theorem becomes_modify {v : Nat} (hv : s.holdsNode v = true) {f : NodeSlot → NodeSlot}
    (hf : ∀ slot, (f slot).incident = slot.incident) {label : Option String}
    (hlabel : ∀ slot, s.nodes[v]? = some slot → (f slot).label? = label)
    (hjoins : JoinsNodes (s.labelSlots.set v label) s.edgeSlots) :
    s.Becomes (s.labelSlots.set v label) s.edgeSlots ⟨s.nodes.modify v f, s.edges⟩ := by
  have hlabels : labelSlots ⟨s.nodes.modify v f, s.edges⟩ = s.labelSlots.set v label :=
    map_modify_eq_set hlabel
  refine ⟨⟨hlabels ▸ hjoins, fun {w slot} hslot i => ?_⟩, ⟨by simp, fun w slot hslot hdead => ?_,
    fun i slot hslot => ⟨slot, hslot, rfl, id⟩⟩, hlabels, rfl⟩
  · rw [List.getElem?_modify] at hslot
    obtain ⟨old, hold, rfl⟩ := Option.map_eq_some_iff.mp hslot
    refine Iff.trans ?_ (h.mem_incident_iff hold)
    split
    · rw [hf]
    · rfl
  · have hne : v ≠ w := fun heq => by
      rw [heq, holdsNode, hslot, Option.any_some, hdead] at hv
      exact Bool.false_ne_true hv
    show (s.nodes.modify v f)[w]? = some slot
    rw [List.getElem?_modify_ne f _ hne, hslot]

/-- **A label is replaced.** -/
theorem exists_perform_setLabel {v : Nat} (hv : s.holdsNode v = true) (label : String) :
    ∃ s', (setLabel v label).perform s = (.ok (), s') ∧
      s.Becomes (s.labelSlots.set v (some label)) s.edgeSlots s' := by
  obtain ⟨slot, hslot⟩ := holdsNode_eq_true_iff.mp hv
  have hread : (readNode v).perform s = (.ok slot, s) := hslot ▸ perform_readNode s v
  refine ⟨_, SlotCall.perform_bind_of_ok hread _, h.becomes_modify hv
    (f := fun slot => { slot with label }) (fun _ => rfl) (fun found hfound => ?_)
    ((SlotStep.relabel ?_ label).joinsNodes h.joins)⟩
  · obtain ⟨hslot, halive⟩ := node_eq_ok_iff.mp hslot
    cases hslot.symm.trans hfound
    rw [NodeSlot.label?, halive, if_pos rfl]
  · rwa [alive_labelSlots]

/-- **A node is removed** if no edge touches it. -/
theorem exists_perform_removeNode {v : Nat} (hv : s.holdsNode v = true)
    (hfree : touching s.edgeSlots v = []) :
    ∃ s', (removeNode v).perform s = (.ok (), s') ∧
      s.Becomes (s.labelSlots.set v none) s.edgeSlots s' := by
  obtain ⟨slot, hslot⟩ := holdsNode_eq_true_iff.mp hv
  have hread : (readNode v).perform s = (.ok slot, s) := hslot ▸ perform_readNode s v
  have hempty : slot.incident.isEmpty = true := by
    rw [SortedSet.isEmpty, h.incident_eq (node_eq_ok_iff.mp hslot).1, hfree]
    rfl
  refine ⟨_, ?_, h.becomes_modify hv (f := fun slot => { slot with isAlive := false })
    (fun _ => rfl) (fun _ _ => rfl) ((SlotStep.dropNode hfree).joinsNodes h.joins)⟩
  rw [removeNode, SlotCall.perform_bind_of_ok hread, hempty]
  rfl

end InStep

/-! ### Copies of parts of graphs -/

/-- The copies of the nodes are put behind the slots of nodes. -/
theorem perform_addKept (s : SlotTable) (t : GraphView) (keep : List Bool) :
    (addKept t keep).perform s = (.ok (t.copiedSlots keep s.nodes.length),
      ⟨s.nodes ++ (t.copiedLabels keep).map NodeSlot.fresh, s.edges⟩) := by
  let state : List String → SlotTable := fun labels =>
    ⟨s.nodes ++ labels.map NodeSlot.fresh, s.edges⟩
  have hadd : ∀ labels label, (addNode label).run.run (state labels) =
      (.ok (s.nodes.length + labels.length), state (labels ++ [label])) := fun labels label => by
    have hnext : (addNode label).run.run (state labels) =
        (.ok (s.nodes ++ labels.map NodeSlot.fresh).length,
          ⟨s.nodes ++ labels.map NodeSlot.fresh ++ [label].map NodeSlot.fresh, s.edges⟩) := rfl
    rw [hnext, List.length_append, List.length_map, List.append_assoc, ← List.map_append]
  have hrun := run_mapM_kept addNode state s.nodes.length hadd (fun v => keep.getD v false) t.label
    (List.range t.nodeCount) []
  have hstart : state [] = s := congrArg (SlotTable.mk · s.edges) (List.append_nil _)
  rwa [hstart, List.nil_append] at hrun

/-- The edges that are pushed are those that are listed for the graph. -/
theorem forM_pushAround (t : GraphView) (slots : List (Option Nat)) :
    forM (List.range t.nodeCount) (pushAround t slots) =
      forM (t.copiedEdges slots) fun e => discard (pushEdge e) := by
  rw [GraphView.copiedEdges, GraphView.edgeList, List.filterMap_flatMap, forM_flatMap]
  congr 1
  funext v
  rw [List.filterMap_filterMap, pushAround]
  cases hv : slots.getD v none with
  | none =>
    have hnone : (t.incident v).filterMap (fun i =>
        (if v ≤ i.node then some (⟨v, i.node, i.label⟩ : Edge) else none).bind fun e =>
          (slots.getD e.source none).bind fun v =>
            (slots.getD e.target none).map fun w => (⟨v, w, e.label⟩ : Edge)) = [] := by
      refine List.filterMap_eq_nil_iff.mpr fun i _ => ?_
      split
      · rw [Option.bind_some, hv, Option.bind_none]
      · rfl
    rw [hnone]
    rfl
  | some source =>
    rw [forM_filterMap]
    refine congrArg (forM (t.incident v)) (funext fun i => ?_)
    by_cases hi : i.node < v
    · rw [if_pos hi, if_neg (Nat.not_le_of_lt hi)]
      rfl
    · rw [if_neg hi, if_pos (Nat.le_of_not_lt hi), Option.bind_some, hv, Option.bind_some]
      cases slots.getD i.node none <;> rfl

namespace InStep

/-- Edges between nodes are pushed one after the other. -/
theorem exists_perform_pushEdges (h : s.InStep) {new : List Edge}
    (hnew : JoinsNodes s.labelSlots (new.map some)) :
    ∃ s', SlotCall.perform (forM new fun e => discard (pushEdge e)) s = (.ok (), s') ∧
      s.Becomes s.labelSlots (s.edgeSlots ++ new.map some) s' := by
  induction new generalizing s with
  | nil => exact ⟨s, rfl, h, .refl s, rfl, (List.append_nil _).symm⟩
  | cons e new ih =>
    obtain ⟨hs, ht⟩ := hnew e (List.mem_cons_self ..)
    rw [alive_labelSlots] at hs ht
    obtain ⟨s₁, hpush, hfirst⟩ := h.exists_perform_pushEdge hs ht
    obtain ⟨s₂, hpushes, hrest⟩ := ih hfirst.inStep fun e' he' => by
      rw [hfirst.labelSlots_eq]
      exact hnew e' (List.mem_cons_of_mem _ he')
    rw [hfirst.labelSlots_eq, hfirst.edgeSlots_eq, List.append_assoc] at hrest
    refine ⟨s₂, ?_, hrest.inStep, hfirst.evolves.trans hrest.evolves, hrest.labelSlots_eq,
      hrest.edgeSlots_eq⟩
    rw [List.forM_cons, SlotCall.perform_bind_of_ok (SlotCall.perform_discard_of_ok hpush), hpushes]

/-- **A copy of a part of a graph** is put behind what is there. -/
theorem exists_perform_extend (h : s.InStep) (t : GraphView) (keep : List Bool) :
    ∃ s', (extend t keep).perform s = (.ok (t.copiedSlots keep s.nodes.length), s') ∧
      s.Becomes (s.labelSlots ++ (t.copiedLabels keep).map some)
        (s.edgeSlots ++ (t.copiedEdges (t.copiedSlots keep s.nodes.length)).map some) s' := by
  have hnodes := h.becomes_append (t.copiedLabels keep)
  have hlength : s.labelSlots.length = s.nodes.length := List.length_map _
  have hjoins := Arena.joinsNodes_copiedEdges s.labelSlots t keep
  rw [hlength, ← hnodes.labelSlots_eq] at hjoins
  obtain ⟨s', hpushes, hedges⟩ := hnodes.inStep.exists_perform_pushEdges hjoins
  rw [hnodes.labelSlots_eq, hnodes.edgeSlots_eq] at hedges
  refine ⟨s', ?_, hedges.inStep, hnodes.evolves.trans hedges.evolves, hedges.labelSlots_eq,
    hedges.edgeSlots_eq⟩
  rw [extend, SlotCall.perform_bind_of_ok (perform_addKept s t keep), forM_pushAround,
    SlotCall.perform_bind_of_ok hpushes]
  rfl

end InStep

end SlotTable

end GraphGrammar
