import GraphGrammar.Graph.HostTable
import GraphGrammar.Proofs.Composite.Hosts
import GraphGrammar.Proofs.Loops

/-!
# The two numberings of several hosts

In the table of hosts that were pushed in turn, every host begins where the hosts before it end, if
the nodes and edges of all hosts can be counted. The host of a node is the last one that does not
begin after the node, and hosts without nodes are never met, wherever they stand. So the nodes of
the hosts and the numbers below the number of all nodes correspond to each other one to one, and
around a node lie the edges that lie around it in its host.

Hosts are soon too large to be counted, because a host may be several hosts itself, and the same one
may be pushed again. The number of nodes then starts again from zero, unless this is refused.

## Main definitions

* `GraphGrammar.HostTable.startOf` — the number of nodes before a host.
* `GraphGrammar.HostTable.Fits` — hosts that can be counted.
* `GraphGrammar.HostTable.IsExact` — what a table answers.
* `GraphGrammar.Composite.doubled` — hosts that are soon too large.

## Main results

* `GraphGrammar.lt_partitionPoint_iff` — what bisection finds.
* `GraphGrammar.HostTable.ofHosts_eq` — the table of hosts that were pushed in turn.
* `GraphGrammar.HostTable.toLocal_eq_some_iff`, `toGlobal_eq_some_iff` — the two numberings.
* `GraphGrammar.HostTable.isExact_tableOf` — what the table of given hosts answers.
* `GraphGrammar.HostTable.numberings_invert_of_fits` — also after further hosts were pushed.
* `GraphGrammar.HostTable.not_isExact_doubled` — hosts that cannot be counted.
-/

namespace GraphGrammar

/-! ### Bisection -/

section

variable {α : Type} {condition : α → Bool} {l : List α}

/-- The place that is found lies between the places that are known to satisfy the condition and
those that are known not to. -/
theorem lt_partitionFrom_iff
    (h : ∀ {i j : Nat}, i ≤ j → (l[j]?).any condition = true → (l[i]?).any condition = true)
    {base size : Nat} (hbelow : ∀ i < base, (l[i]?).any condition = true)
    (habove : ∀ i, base + size ≤ i → ¬(l[i]?).any condition = true) (i : Nat) :
    i < partitionFrom condition l base size ↔ (l[i]?).any condition = true := by
  fun_induction partitionFrom condition l base size with
  | case1 base size hsize hbase =>
    refine ⟨fun hi => h (Nat.le_of_lt_succ hi) hbase, fun hi => ?_⟩
    exact Nat.lt_of_not_le fun hle => habove i (by omega) hi
  | case2 base size hsize hbase =>
    exact ⟨hbelow i, fun hi => Nat.lt_of_not_le fun hle => hbase (h hle hi)⟩
  | case3 base size hsize ih =>
    by_cases hmid : (l[base + size / 2]?).any condition = true
    · rw [dif_pos hmid] at ih
      rw [if_pos hmid]
      exact ih (fun i hi => h (Nat.le_of_lt hi) hmid) fun i hi => habove i (by omega)
    · rw [dif_neg hmid] at ih
      rw [if_neg hmid]
      exact ih hbelow fun i hi hholds => hmid (h (by omega) hholds)

/-- **Bisection** finds the place from which on a condition does not hold. -/
theorem lt_partitionPoint_iff
    (h : ∀ {i j : Nat}, i ≤ j → (l[j]?).any condition = true → (l[i]?).any condition = true)
    (i : Nat) :
    i < partitionPoint condition l ↔ (l[i]?).any condition = true := by
  refine lt_partitionFrom_iff h (fun i hi => absurd hi (Nat.not_lt_zero i)) (fun i hi => ?_) i
  rw [Nat.zero_add] at hi
  simp [List.getElem?_eq_none hi]

end

/-! ### The table of given hosts -/

theorem Overflow.add_of_le {overflow : Overflow} {a b : Nat} (h : a + b ≤ countLimit) :
    overflow.add a b = some (a + b) := by
  cases overflow with
  | refused => exact if_pos h
  | wrapping => exact congrArg some (Nat.mod_eq_of_lt (Nat.lt_succ_of_le h))

theorem Overflow.add_refused_eq_some_iff {a b n : Nat} :
    Overflow.refused.add a b = some n ↔ a + b ≤ countLimit ∧ a + b = n := by
  rw [Overflow.add, addCounts?]
  by_cases h : a + b ≤ countLimit <;> simp [h]

namespace HostTable

/-- The number of nodes before the host `i`. -/
def startOf (hosts : List GraphView) (i : Nat) : Nat :=
  ((hosts.take i).map GraphView.nodeCount).sum

/-- Hosts whose nodes and edges can be counted. -/
def Fits (hosts : List GraphView) : Prop :=
  (hosts.map GraphView.nodeCount).sum ≤ countLimit ∧
    (hosts.map GraphView.edgeCount).sum ≤ countLimit

/-- The table in which every host begins where the hosts before it end. -/
def tableOf (overflow : Overflow) (hosts : List GraphView) : HostTable :=
  ⟨hosts, (List.range hosts.length).map (startOf hosts), (hosts.map GraphView.nodeCount).sum,
    (hosts.map GraphView.edgeCount).sum, overflow⟩

variable {overflow : Overflow} {hosts more : List GraphView} {g : GraphView} {i j v l : Nat}

theorem startOf_succ (hi : hosts[i]? = some g) :
    startOf hosts (i + 1) = startOf hosts i + g.nodeCount := by
  rw [startOf, startOf, List.take_add_one, hi]
  simp

theorem startOf_append (more : List GraphView) (hi : i ≤ hosts.length) :
    startOf (hosts ++ more) i = startOf hosts i := by
  rw [startOf, startOf, List.take_append_of_le_length hi]

theorem startOf_length (hosts : List GraphView) :
    startOf hosts hosts.length = (hosts.map GraphView.nodeCount).sum := by
  rw [startOf, List.take_length]

theorem startOf_mono (hosts : List GraphView) (hij : i ≤ j) :
    startOf hosts i ≤ startOf hosts j := by
  obtain ⟨k, rfl⟩ := Nat.exists_eq_add_of_le hij
  rw [startOf, startOf, List.take_add, List.map_append, List.sum_append]
  exact Nat.le_add_right ..

/-- A host ends where the next one begins, or with the last node of all. -/
theorem startOf_add_le (hi : hosts[i]? = some g) :
    startOf hosts i + g.nodeCount ≤ (hosts.map GraphView.nodeCount).sum := by
  rw [← startOf_succ hi, ← startOf_length]
  exact startOf_mono hosts (List.getElem?_eq_some_iff.mp hi).1

theorem Fits.of_append (h : Fits (hosts ++ more)) : Fits hosts := by
  simp only [Fits, List.map_append, List.sum_append] at h ⊢
  omega

/-- **One more host** that can be counted with the others. -/
theorem push_tableOf (h : Fits (hosts ++ [g])) : (tableOf overflow hosts).push g =
    some (tableOf overflow (hosts ++ [g]), hosts.length) := by
  have hoffsets : (List.range hosts.length).map (startOf (hosts ++ [g])) =
      (List.range hosts.length).map (startOf hosts) :=
    List.map_congr_left fun i hi => startOf_append [g] (Nat.le_of_lt (List.mem_range.mp hi))
  have hnodes := h.1
  have hedges := h.2
  simp only [List.map_append, List.sum_append, List.map_singleton, List.sum_singleton]
    at hnodes hedges
  rw [push, tableOf, Overflow.add_of_le hnodes, Overflow.add_of_le hedges, tableOf]
  simp [List.range_succ, hoffsets, startOf_append, startOf_length]

theorem pushAll_tableOf (h : Fits (hosts ++ more)) :
    (tableOf overflow hosts).pushAll more = some (tableOf overflow (hosts ++ more)) := by
  induction more generalizing hosts with
  | nil =>
    rw [List.append_nil]
    rfl
  | cons g more ih =>
    rw [List.append_cons] at h ⊢
    rw [pushAll, List.foldlM_cons, push_tableOf h.of_append]
    exact ih h

/-- **The table of given hosts.** Every host begins where the hosts before it end. -/
theorem ofHosts_eq (h : Fits hosts) : ofHosts overflow hosts = some (tableOf overflow hosts) :=
  @pushAll_tableOf overflow [] hosts h

/-- **Hosts that cannot be counted** are refused, if sums above the limit are. -/
theorem exists_ofHosts_refused_iff :
    (∃ c, ofHosts .refused hosts = some c) ↔ Fits hosts := by
  refine ⟨fun h => ?_, fun h => ⟨_, ofHosts_eq h⟩⟩
  induction hosts using List.reverseRecOn with
  | nil => exact ⟨Nat.zero_le _, Nat.zero_le _⟩
  | append_singleton hosts g ih =>
    obtain ⟨c', hc'⟩ := h
    rw [ofHosts, pushAll, List.foldlM_append] at hc'
    obtain ⟨c, hc, hpush⟩ := Option.bind_eq_some_iff.mp hc'
    obtain rfl := Option.some.inj ((ofHosts_eq (ih ⟨c, hc⟩)).symm.trans hc)
    rw [List.foldlM_cons, push] at hpush
    simp only [Option.bind_eq_bind, Option.bind_eq_some_iff, Option.map_eq_some_iff, tableOf,
      Overflow.add_refused_eq_some_iff] at hpush
    obtain ⟨_, ⟨_, ⟨_, ⟨hnodes, -⟩, _, ⟨hedges, -⟩, -⟩, -⟩, -⟩ := hpush
    simpa [Fits] using And.intro hnodes hedges

theorem getElem?_offsets_tableOf (overflow : Overflow) (hi : i < hosts.length) :
    (tableOf overflow hosts).offsets[i]? = some (startOf hosts i) := by
  rw [tableOf, List.getElem?_map, List.getElem?_range hi, Option.map_some]

/-! ### The two numberings -/

/-- The hosts that do not begin after a node. -/
theorem lt_partitionPoint_offsets_iff (overflow : Overflow) (hosts : List GraphView) (v i : Nat) :
    i < partitionPoint (fun offset => decide (offset ≤ v)) (tableOf overflow hosts).offsets ↔
      i < hosts.length ∧ startOf hosts i ≤ v := by
  have hany : ∀ i, ((tableOf overflow hosts).offsets[i]?).any (fun offset => decide (offset ≤ v)) =
      true ↔ i < hosts.length ∧ startOf hosts i ≤ v := by
    intro i
    by_cases hi : i < hosts.length
    · simp [getElem?_offsets_tableOf overflow hi, hi]
    · simp [tableOf, hi]
  rw [lt_partitionPoint_iff (fun hij hj => ?_), hany]
  obtain ⟨hj, hle⟩ := (hany _).mp hj
  exact (hany _).mpr ⟨Nat.lt_of_le_of_lt hij hj, Nat.le_trans (startOf_mono hosts hij) hle⟩

/-- **The host of a node** is the one among whose nodes it is. -/
theorem toLocal_eq_some_iff : (tableOf overflow hosts).toLocal v = some (i, l) ↔
    ∃ g, hosts[i]? = some g ∧ l < g.nodeCount ∧ startOf hosts i + l = v := by
  have hpoint := lt_partitionPoint_offsets_iff overflow hosts v
  have hcount : (tableOf overflow hosts).nodeCount = (hosts.map GraphView.nodeCount).sum := rfl
  rw [toLocal, hcount]
  constructor
  · intro h
    split at h
    · cases h
    next hv =>
    split at h
    · cases h
    next k hk =>
    rw [hk] at hpoint
    obtain ⟨hlt, hle⟩ := (hpoint k).mp (Nat.lt_succ_self k)
    rw [getElem?_offsets_tableOf overflow hlt, Option.map_some, Option.some.injEq,
      Prod.mk.injEq] at h
    obtain ⟨rfl, rfl⟩ := h
    have hget := List.getElem?_eq_getElem hlt
    refine ⟨hosts[k], hget, ?_, by omega⟩
    -- The next host, if there is one, begins after the node.
    have hnext : v < startOf hosts (k + 1) := by
      rcases Nat.lt_or_eq_of_le (Nat.succ_le_of_lt hlt) with hlt' | heq
      · exact Nat.lt_of_not_le fun hle' =>
          Nat.lt_irrefl _ ((hpoint (k + 1)).mpr ⟨hlt', hle'⟩)
      · rw [← Nat.succ_eq_add_one, heq, startOf_length]
        omega
    rw [startOf_succ hget] at hnext
    omega
  · rintro ⟨g, hi, hl, rfl⟩
    have hend := startOf_add_le hi
    have hlt := (List.getElem?_eq_some_iff.mp hi).1
    have hpos : i < partitionPoint (fun offset => decide (offset ≤ startOf hosts i + l))
        (tableOf overflow hosts).offsets := (hpoint i).mpr ⟨hlt, Nat.le_add_right ..⟩
    have hlast : ¬i + 1 < partitionPoint (fun offset => decide (offset ≤ startOf hosts i + l))
        (tableOf overflow hosts).offsets := fun h => by
      have := ((hpoint (i + 1)).mp h).2
      rw [startOf_succ hi] at this
      omega
    rw [if_neg (by omega), show partitionPoint _ (tableOf overflow hosts).offsets = i + 1 by omega]
    simp [getElem?_offsets_tableOf overflow hlt]

theorem toGlobal_eq_some_iff (hfits : Fits hosts) : (tableOf overflow hosts).toGlobal i l = some v ↔
    ∃ g, hosts[i]? = some g ∧ l < g.nodeCount ∧ startOf hosts i + l = v := by
  have hhosts : (tableOf overflow hosts).hosts = hosts := rfl
  rw [toGlobal, hhosts]
  cases hi : hosts[i]? with
  | none => simp
  | some g =>
    have hlt := (List.getElem?_eq_some_iff.mp hi).1
    by_cases hl : l < g.nodeCount
    · have hend := startOf_add_le hi
      have hle : startOf hosts i + l ≤ countLimit := by
        have := hfits.1
        omega
      simp [hl, getElem?_offsets_tableOf overflow hlt, Overflow.add_of_le hle]
    · simp [hl]

/-- Every number below the number of all nodes is a node of a host. -/
theorem exists_toLocal_iff : (∃ place, (tableOf overflow hosts).toLocal v = some place) ↔
    v < (tableOf overflow hosts).nodeCount := by
  rw [toLocal]
  constructor
  · rintro ⟨place, h⟩
    split at h
    · cases h
    · omega
  · intro hv
    have hpoint := lt_partitionPoint_offsets_iff overflow hosts v
    have hlength : 0 < hosts.length := List.length_pos_iff.mpr fun hnil => by
      rw [hnil] at hv
      exact Nat.not_lt_zero v hv
    have hpos := (hpoint 0).mpr ⟨hlength, Nat.zero_le v⟩
    rw [if_neg (Nat.not_le_of_lt hv)]
    split
    · omega
    next k hk =>
    rw [hk] at hpoint
    rw [getElem?_offsets_tableOf overflow ((hpoint k).mp (Nat.lt_succ_self k)).1]
    exact ⟨_, rfl⟩

theorem exists_toGlobal_iff (hfits : Fits hosts) :
    (∃ v, (tableOf overflow hosts).toGlobal i l = some v) ↔
      ∃ g, hosts[i]? = some g ∧ l < g.nodeCount := by
  simp only [toGlobal_eq_some_iff hfits]
  exact ⟨fun ⟨v, g, hi, hl, _⟩ => ⟨g, hi, hl⟩, fun ⟨g, hi, hl⟩ => ⟨_, g, hi, hl, rfl⟩⟩

/-! ### Reads -/

section

variable (h : (tableOf overflow hosts).toLocal v = some (i, l)) (hi : hosts[i]? = some g)

include h hi

theorem eq_startOf_add : l < g.nodeCount ∧ v = startOf hosts i + l := by
  obtain ⟨g', hi', hl, hv⟩ := toLocal_eq_some_iff.mp h
  obtain rfl := Option.some.inj (hi.symm.trans hi')
  exact ⟨hl, hv.symm⟩

theorem label?_of_toLocal : (tableOf overflow hosts).label? v = some (g.label l) := by
  have hhosts : (tableOf overflow hosts).hosts = hosts := rfl
  simp [label?, h, hhosts, hi, GraphView.label?, (eq_startOf_add h hi).1]

theorem degree_of_toLocal : (tableOf overflow hosts).degree v = g.degree l := by
  have hhosts : (tableOf overflow hosts).hosts = hosts := rfl
  rw [degree, h]
  simp [hhosts, hi]

variable (hfits : Fits hosts)

include hfits

theorem incident_of_toLocal : (tableOf overflow hosts).incident v =
    some ((g.incident l).map (GraphView.shiftIncidence (startOf hosts i))) := by
  have hhosts : (tableOf overflow hosts).hosts = hosts := rfl
  have hoffset := getElem?_offsets_tableOf overflow (List.getElem?_eq_some_iff.mp hi).1
  have hend := startOf_add_le hi
  have hle := hfits.1
  have hshift : ∀ e ∈ g.incident l, (overflow.add e.node (startOf hosts i)).map
      (Incidence.mk · e.label) = some (GraphView.shiftIncidence (startOf hosts i) e) := by
    intro e he
    have hlt := (g.mem_lt he).2
    rw [Overflow.add_of_le (by omega), Nat.add_comm]
    rfl
  rw [incident, h]
  simp only [hhosts, hi, hoffset, Option.bind_eq_bind, Option.bind_some]
  exact mapM_eq_pure hshift

theorem selfLoops_of_toLocal : (tableOf overflow hosts).selfLoops v = some (g.selfLoops l) := by
  rw [selfLoops, incident_of_toLocal h hi hfits, (eq_startOf_add h hi).2, Option.map_some,
    List.countP_map, GraphView.selfLoops]
  refine congrArg some (List.countP_congr fun e _ => ?_)
  simp [GraphView.shiftIncidence]

/-- An edge leads to a node of the same host. -/
theorem exists_toLocal_of_mem_incident {edges : List Incidence}
    (hedges : (tableOf overflow hosts).incident v = some edges) {e : Incidence} (he : e ∈ edges) :
    ∃ w, (tableOf overflow hosts).toLocal e.node = some (i, w) := by
  obtain rfl := Option.some.inj (hedges.symm.trans (incident_of_toLocal h hi hfits))
  obtain ⟨e', he', rfl⟩ := List.mem_map.mp he
  exact ⟨e'.node, toLocal_eq_some_iff.mpr ⟨g, hi, (g.mem_lt he').2, rfl⟩⟩

end

/-- What a table of hosts answers. -/
structure IsExact (c : HostTable) (hosts : List GraphView) : Prop where
  /-- The nodes of all hosts are counted. -/
  nodeCount_eq : c.nodeCount = (hosts.map GraphView.nodeCount).sum
  /-- The edges of all hosts are counted. -/
  edgeCount_eq : c.edgeCount = (hosts.map GraphView.edgeCount).sum
  /-- Exactly the numbers below the number of nodes belong to a host. -/
  exists_toLocal_iff : ∀ v, (∃ place, c.toLocal v = some place) ↔ v < c.nodeCount
  /-- Exactly the nodes of the hosts have a number. -/
  exists_toGlobal_iff : ∀ i l, (∃ v, c.toGlobal i l = some v) ↔
    ∃ g, hosts[i]? = some g ∧ l < g.nodeCount
  /-- The two numberings are inverse to each other. -/
  toLocal_eq_some_iff : ∀ v i l, c.toLocal v = some (i, l) ↔ c.toGlobal i l = some v
  /-- The nodes of a host are numbered in their order after those of the hosts before it. -/
  eq_startOf_add : ∀ v i l, c.toGlobal i l = some v → v = startOf hosts i + l
  /-- The label of a node is its label in its host. -/
  label?_eq : ∀ v i l g, c.toLocal v = some (i, l) → hosts[i]? = some g →
    c.label? v = some (g.label l)
  /-- The edges around a node are those around it in its host, renumbered. -/
  incident_eq : ∀ v i l g, c.toLocal v = some (i, l) → hosts[i]? = some g →
    c.incident v = some ((g.incident l).map (GraphView.shiftIncidence (startOf hosts i)))
  /-- The degree of a node is its degree in its host. -/
  degree_eq : ∀ v i l g, c.toLocal v = some (i, l) → hosts[i]? = some g → c.degree v = g.degree l
  /-- A node has as many self-loops as in its host. -/
  selfLoops_eq : ∀ v i l g, c.toLocal v = some (i, l) → hosts[i]? = some g →
    c.selfLoops v = some (g.selfLoops l)
  /-- An edge around a node leads to a node of the same host. -/
  stays : ∀ v i l, c.toLocal v = some (i, l) → ∀ edges ∈ c.incident v, ∀ e ∈ edges,
    ∃ w, c.toLocal e.node = some (i, w)
  /-- A number that is no node has no label, and no edges are read around it. -/
  outside : ∀ v, c.nodeCount ≤ v →
    c.label? v = none ∧ c.incident v = some [] ∧ c.degree v = 0 ∧ c.selfLoops v = some 0

theorem toLocal_eq_none (hv : (tableOf overflow hosts).nodeCount ≤ v) :
    (tableOf overflow hosts).toLocal v = none :=
  if_pos hv

/-- **The table of given hosts** answers exactly what it should, wherever there are hosts without
nodes. -/
theorem isExact_tableOf (overflow : Overflow) (hfits : Fits hosts) :
    (tableOf overflow hosts).IsExact hosts where
  nodeCount_eq := rfl
  edgeCount_eq := rfl
  exists_toLocal_iff _ := HostTable.exists_toLocal_iff
  exists_toGlobal_iff _ _ := HostTable.exists_toGlobal_iff hfits
  toLocal_eq_some_iff _ _ _ :=
    HostTable.toLocal_eq_some_iff.trans (toGlobal_eq_some_iff hfits).symm
  eq_startOf_add _ _ _ h := by
    obtain ⟨-, -, -, rfl⟩ := (toGlobal_eq_some_iff hfits).mp h
    rfl
  label?_eq _ _ _ _ := label?_of_toLocal
  incident_eq _ _ _ _ h hi := incident_of_toLocal h hi hfits
  degree_eq _ _ _ _ := degree_of_toLocal
  selfLoops_eq _ _ _ _ h hi := selfLoops_of_toLocal h hi hfits
  stays v i l h edges hedges e he := by
    obtain ⟨g, hi, -⟩ := HostTable.toLocal_eq_some_iff.mp h
    exact exists_toLocal_of_mem_incident h hi hfits hedges he
  outside v hv := by simp [label?, incident, degree, selfLoops, toLocal_eq_none hv]

/-! ### Further hosts -/

/-- Whatever one table answers about its nodes and hosts, another one answers as well. -/
structure Keeps (c c' : HostTable) : Prop where
  /-- Nodes stay in their hosts. -/
  toLocal_eq : ∀ v < c.nodeCount, c'.toLocal v = c.toLocal v
  /-- The nodes of the hosts keep their numbers, and the hosts do not get others. -/
  toGlobal_eq : ∀ i < c.hosts.length, ∀ l, c'.toGlobal i l = c.toGlobal i l
  /-- Nodes keep their labels. -/
  label?_eq : ∀ v < c.nodeCount, c'.label? v = c.label? v
  /-- Nodes keep the edges around them. -/
  incident_eq : ∀ v < c.nodeCount, c'.incident v = c.incident v
  /-- Nodes keep their degrees. -/
  degree_eq : ∀ v < c.nodeCount, c'.degree v = c.degree v
  /-- Nodes keep their self-loops. -/
  selfLoops_eq : ∀ v < c.nodeCount, c'.selfLoops v = c.selfLoops v

/-- A node of a host before is a node of the same host. -/
theorem exists_toLocal_append (more : List GraphView)
    (hv : v < (tableOf overflow hosts).nodeCount) :
    ∃ i l g, (tableOf overflow hosts).toLocal v = some (i, l) ∧ hosts[i]? = some g ∧
      (tableOf overflow (hosts ++ more)).toLocal v = some (i, l) ∧
      (hosts ++ more)[i]? = some g ∧ startOf (hosts ++ more) i = startOf hosts i := by
  obtain ⟨⟨i, l⟩, h⟩ := HostTable.exists_toLocal_iff.mpr hv
  obtain ⟨g, hi, hl, hstart⟩ := toLocal_eq_some_iff.mp h
  have hlt := (List.getElem?_eq_some_iff.mp hi).1
  have hi' : (hosts ++ more)[i]? = some g := by rw [List.getElem?_append_left hlt, hi]
  have hstart' := startOf_append more (Nat.le_of_lt hlt)
  refine ⟨i, l, g, h, hi, toLocal_eq_some_iff.mpr ⟨g, hi', hl, ?_⟩, hi', hstart'⟩
  rw [hstart', hstart]

/-- **Hosts that are pushed later** change no answer. -/
theorem keeps_append (overflow : Overflow) (hfits : Fits (hosts ++ more)) :
    (tableOf overflow hosts).Keeps (tableOf overflow (hosts ++ more)) where
  toLocal_eq v hv := by
    obtain ⟨i, l, g, h, -, h', -⟩ := exists_toLocal_append more hv
    rw [h, h']
  toGlobal_eq i hi l := by
    have hlt : i < hosts.length := hi
    refine Option.ext fun v => ?_
    rw [toGlobal_eq_some_iff hfits, toGlobal_eq_some_iff hfits.of_append,
      List.getElem?_append_left hlt, startOf_append more (Nat.le_of_lt hlt)]
  label?_eq v hv := by
    obtain ⟨i, l, g, h, hi, h', hi', -⟩ := exists_toLocal_append more hv
    rw [label?_of_toLocal h hi, label?_of_toLocal h' hi']
  incident_eq v hv := by
    obtain ⟨i, l, g, h, hi, h', hi', hstart⟩ := exists_toLocal_append more hv
    rw [incident_of_toLocal h hi hfits.of_append, incident_of_toLocal h' hi' hfits, hstart]
  degree_eq v hv := by
    obtain ⟨i, l, g, h, hi, h', hi', -⟩ := exists_toLocal_append more hv
    rw [degree_of_toLocal h hi, degree_of_toLocal h' hi']
  selfLoops_eq v hv := by
    obtain ⟨i, l, g, h, hi, h', hi', -⟩ := exists_toLocal_append more hv
    rw [selfLoops_of_toLocal h hi hfits.of_append, selfLoops_of_toLocal h' hi' hfits]

end HostTable

/-! ### Hosts read as one graph -/

namespace Composite

open HostTable (Fits tableOf startOf)

variable {overflow : Overflow} {hosts : List GraphView} {g : GraphView} {i v l : Nat}

theorem offset_eq_startOf (hosts : List GraphView) (i : Nat) :
    offset hosts i = startOf hosts i := by
  rw [offset, startOf, ← List.sum_eq_foldl]

theorem locate_eq_some_iff : locate hosts v = some (i, l) ↔
    ∃ g, hosts[i]? = some g ∧ l < g.nodeCount ∧ offset hosts i + l = v := by
  induction hosts generalizing v i with
  | nil => simp [locate]
  | cons g hosts ih =>
    rw [locate]
    split
    · next hv =>
      cases i with
      | zero =>
        simp only [Option.some.injEq, Prod.mk.injEq, true_and, List.getElem?_cons_zero,
          offset_zero, Nat.zero_add, exists_eq_left']
        omega
      | succ i =>
        refine iff_of_false (by simp) fun ⟨g', _, _, hv'⟩ => ?_
        rw [offset_cons_succ] at hv'
        omega
    · next hv =>
      cases i with
      | zero =>
        refine iff_of_false (by simp) fun ⟨g', hg, hl, hv'⟩ => hv ?_
        rw [List.getElem?_cons_zero, Option.some.injEq] at hg
        rw [offset_zero, Nat.zero_add] at hv'
        rwa [hg, ← hv']
      | succ i =>
        have hrest : (locate hosts (v - g.nodeCount)).map (fun place => (place.1 + 1, place.2)) =
            some (i + 1, l) ↔ locate hosts (v - g.nodeCount) = some (i, l) := by
          simp
        rw [hrest, ih, List.getElem?_cons_succ, offset_cons_succ]
        refine exists_congr fun g' => and_congr_right fun _ => and_congr_right fun _ => ?_
        omega

/-- **Both ways of looking up a host** find the same one. -/
theorem toLocal_tableOf (overflow : Overflow) (hosts : List GraphView) (v : Nat) :
    (tableOf overflow hosts).toLocal v = (Composite.mk hosts).toLocal v := by
  refine Option.ext fun ⟨i, l⟩ => ?_
  rw [HostTable.toLocal_eq_some_iff, toLocal, locate_eq_some_iff, offset_eq_startOf]

theorem toGlobal_tableOf (overflow : Overflow) (hfits : Fits hosts) (i l : Nat) :
    (tableOf overflow hosts).toGlobal i l = (Composite.mk hosts).toGlobal i l := by
  refine Option.ext fun v => ?_
  rw [HostTable.toGlobal_eq_some_iff hfits, toGlobal, ← offset_eq_startOf]
  cases hosts[i]? with
  | none => simp
  | some g => by_cases hl : l < g.nodeCount <;> simp [hl]

theorem nodeCount_view (overflow : Overflow) (hosts : List GraphView) :
    (Composite.mk hosts).view.nodeCount = (tableOf overflow hosts).nodeCount := by
  induction hosts with
  | nil => rfl
  | cons g hosts ih => exact congrArg (g.nodeCount + ·) ih

theorem edgeCount_view (overflow : Overflow) (hosts : List GraphView) :
    (Composite.mk hosts).view.edgeCount = (tableOf overflow hosts).edgeCount := by
  induction hosts with
  | nil => rfl
  | cons g hosts ih => exact congrArg (g.edgeCount + ·) ih

/-- A node of a host is read in the one graph as in its host. -/
theorem read_view (hi : hosts[i]? = some g) (hl : l < g.nodeCount) :
    (Composite.mk hosts).view.label (offset hosts i + l) = g.label l ∧
      (Composite.mk hosts).view.incident (offset hosts i + l) =
        (g.incident l).map (GraphView.shiftIncidence (offset hosts i)) := by
  induction hosts generalizing i with
  | nil => simp at hi
  | cons first hosts ih =>
    have hview : (Composite.mk (first :: hosts)).view =
        first.disjointUnion (Composite.mk hosts).view := rfl
    cases i with
    | zero =>
      obtain rfl := Option.some.inj hi
      rw [hview, offset_zero, Nat.zero_add]
      refine ⟨GraphView.label_disjointUnion_of_lt _ _ hl, ?_⟩
      rw [GraphView.incident_disjointUnion_of_lt _ _ hl]
      refine (List.map_id'' (fun e => ?_) _).symm
      rw [GraphView.shiftIncidence, Nat.zero_add]
    | succ i =>
      obtain ⟨hlabel, hincident⟩ := ih hi
      rw [hview, offset_cons_succ, Nat.add_assoc, GraphView.label_disjointUnion_add,
        GraphView.incident_disjointUnion_add, hlabel, hincident, List.map_map]
      refine ⟨rfl, List.map_congr_left fun e _ => ?_⟩
      rw [Function.comp_apply, GraphView.shiftIncidence, GraphView.shiftIncidence,
        GraphView.shiftIncidence, Nat.add_assoc]

theorem lenient_view (hosts : List GraphView) : (Composite.mk hosts).view.lenient = true := by
  induction hosts with
  | nil => rfl
  | cons _ _ ih => exact ih

/-- **What is read through the table** is what is read of the hosts as one graph. -/
theorem reads_tableOf (overflow : Overflow) (hfits : Fits hosts) (v : Nat) :
    (tableOf overflow hosts).label? v = (Composite.mk hosts).view.label? v ∧
      (tableOf overflow hosts).incident v = (Composite.mk hosts).view.incident? v ∧
      (tableOf overflow hosts).degree v = (Composite.mk hosts).view.degree v ∧
      (tableOf overflow hosts).selfLoops v = some ((Composite.mk hosts).view.selfLoops v) := by
  rw [GraphView.label?, GraphView.incident?, GraphView.degree, GraphView.selfLoops, lenient_view,
    Bool.or_true, if_pos rfl, nodeCount_view overflow]
  by_cases hv : v < (tableOf overflow hosts).nodeCount
  · obtain ⟨⟨i, l⟩, h⟩ := HostTable.exists_toLocal_iff.mpr hv
    obtain ⟨g, hi, hl, hstart⟩ := HostTable.toLocal_eq_some_iff.mp h
    rw [← offset_eq_startOf] at hstart
    obtain ⟨hlabel, hincident⟩ := read_view hi hl
    rw [hstart] at hlabel hincident
    have hread := HostTable.incident_of_toLocal h hi hfits
    rw [← offset_eq_startOf, ← hincident] at hread
    rw [if_pos hv, HostTable.label?_of_toLocal h hi, hlabel, hread, HostTable.selfLoops, hread]
    refine ⟨rfl, rfl, ?_, rfl⟩
    rw [HostTable.degree_of_toLocal h hi, hincident, List.length_map, GraphView.degree]
  · have hnone := HostTable.toLocal_eq_none (Nat.le_of_not_lt hv)
    have hnil : (Composite.mk hosts).view.incident v = [] :=
      List.eq_nil_iff_forall_not_mem.mpr fun e he =>
        hv (nodeCount_view overflow hosts ▸ ((Composite.mk hosts).view.mem_lt he).1)
    simp [HostTable.label?, HostTable.incident, HostTable.degree, HostTable.selfLoops, hnone, hv,
      hnil]

/-- One node, and again and again two copies of the last composition as one graph. -/
def doubled : Nat → GraphView
  | 0 => (⟨["a"], [], nofun⟩ : Graph).view
  | n + 1 => (Composite.mk [doubled n, doubled n]).view

theorem counts_doubled (n : Nat) : (doubled n).nodeCount = 2 ^ n ∧ (doubled n).edgeCount = 0 := by
  induction n with
  | zero => exact ⟨rfl, rfl⟩
  | succ n ih =>
    obtain ⟨hnodes, hedges⟩ := ih
    rw [doubled, nodeCount_view .refused, edgeCount_view .refused]
    simp only [tableOf, List.map_cons, List.map_nil, List.sum_cons, List.sum_nil, hnodes, hedges]
    exact ⟨by rw [Nat.pow_succ]; omega, rfl⟩

end Composite

namespace HostTable

open Composite (doubled counts_doubled)

/-- **The numberings of several hosts** are inverse to each other, as long as the nodes and edges of
all hosts can be counted, and wherever there are hosts without nodes. Every host gets the next
number, hosts that are pushed later change no answer about the nodes and hosts before, and the table
answers as the one graph as which the hosts are read. If sums above the limit are refused, exactly
the hosts that can be counted have a table. -/
theorem numberings_invert_of_fits :
    (∀ hosts, (∃ c, ofHosts .refused hosts = some c) ↔ Fits hosts) ∧
    ∀ (overflow : Overflow) (hosts more : List GraphView), Fits (hosts ++ more) →
      ∃ c c', ofHosts overflow hosts = some c ∧ c.pushAll more = some c' ∧
        c.IsExact hosts ∧ c'.IsExact (hosts ++ more) ∧ c.Keeps c' ∧
        (∀ g ∈ more.head?, ∃ next, c.push g = some (next, hosts.length)) ∧
        (∀ v, c.toLocal v = (Composite.mk hosts).toLocal v) ∧
        (∀ i l, c.toGlobal i l = (Composite.mk hosts).toGlobal i l) ∧
        c.nodeCount = (Composite.mk hosts).view.nodeCount ∧
        c.edgeCount = (Composite.mk hosts).view.edgeCount ∧
        ∀ v, c.label? v = (Composite.mk hosts).view.label? v ∧
          c.incident v = (Composite.mk hosts).view.incident? v ∧
          c.degree v = (Composite.mk hosts).view.degree v ∧
          c.selfLoops v = some ((Composite.mk hosts).view.selfLoops v) := by
  refine ⟨fun _ => exists_ofHosts_refused_iff, fun overflow hosts more hfits => ?_⟩
  have hfirst := hfits.of_append
  refine ⟨_, _, ofHosts_eq hfirst, pushAll_tableOf hfits, isExact_tableOf overflow hfirst,
    isExact_tableOf overflow hfits, keeps_append overflow hfits, fun g hg => ?_,
    Composite.toLocal_tableOf overflow hosts, Composite.toGlobal_tableOf overflow hfirst,
    (Composite.nodeCount_view overflow hosts).symm, (Composite.edgeCount_view overflow hosts).symm,
    Composite.reads_tableOf overflow hfirst⟩
  cases more with
  | nil => cases hg
  | cons g' more =>
    obtain rfl := Option.some.inj hg
    rw [List.append_cons] at hfits
    exact ⟨_, push_tableOf hfits.of_append⟩

/-- Two hosts with nodes, and hosts without nodes at the front, in the middle and at the end. -/
def gappedHosts : List GraphView :=
  [Graph.empty.view, (⟨["a", "b"], [⟨1, 0, "-"⟩], by decide⟩ : Graph).view, Graph.empty.view,
    Graph.empty.view, (⟨["c"], [⟨0, 0, "="⟩], by decide⟩ : Graph).view, Graph.empty.view]

/-- Hosts without nodes are passed over, also when another host was pushed. -/
theorem numberings_invert_of_fits_gappedHosts :
    Fits (gappedHosts ++ [doubled 1]) ∧
    ∃ c c', ofHosts .wrapping gappedHosts = some c ∧ c.pushAll [doubled 1] = some c' ∧
      c.IsExact gappedHosts ∧ c'.IsExact (gappedHosts ++ [doubled 1]) ∧ c.Keeps c' ∧
      (List.range 4).map c.toLocal = [some (1, 0), some (1, 1), some (4, 0), none] ∧
      (List.range 4).map c'.toLocal = [some (1, 0), some (1, 1), some (4, 0), some (6, 0)] := by
  have hfits : Fits (gappedHosts ++ [doubled 1]) := ⟨by decide +kernel, by decide +kernel⟩
  obtain ⟨c, c', hc, hc', hexact, hexact', hkeeps, -⟩ :=
    numberings_invert_of_fits.2 .wrapping gappedHosts [doubled 1] hfits
  have htable : (ofHosts .wrapping gappedHosts).map (fun c => (List.range 4).map c.toLocal) =
      some [some (1, 0), some (1, 1), some (4, 0), none] := by decide +kernel
  have htable' : ((ofHosts .wrapping gappedHosts).bind (pushAll · [doubled 1])).map
      (fun c => (List.range 4).map c.toLocal) =
      some [some (1, 0), some (1, 1), some (4, 0), some (6, 0)] := by decide +kernel
  rw [hc] at htable htable'
  rw [Option.bind_some, hc'] at htable'
  exact ⟨hfits, c, c', hc, hc', hexact, hexact', hkeeps, Option.some.inj htable,
    Option.some.inj htable'⟩

/-- If the number of nodes starts again from zero, the first host has a node that belongs to no
host. -/
theorem exists_ofHosts_wrapping (hg : g.nodeCount = 2 ^ 63) :
    ∃ c, ofHosts .wrapping [g, g] = some c ∧ c.nodeCount = 0 ∧ c.toGlobal 0 0 = some 0 ∧
      c.toLocal 0 = none ∧ ¬c.IsExact [g, g] := by
  have htable : ofHosts .wrapping [g, g] = some ⟨[g, g], [0, (0 + g.nodeCount) % (countLimit + 1)],
      ((0 + g.nodeCount) % (countLimit + 1) + g.nodeCount) % (countLimit + 1),
      ((0 + g.edgeCount) % (countLimit + 1) + g.edgeCount) % (countLimit + 1), .wrapping⟩ := rfl
  have hcount : ((0 + g.nodeCount) % (countLimit + 1) + g.nodeCount) % (countLimit + 1) = 0 := by
    rw [hg]
    decide
  rw [hcount] at htable
  have hglobal : toGlobal ⟨[g, g], [0, (0 + g.nodeCount) % (countLimit + 1)], 0,
      ((0 + g.edgeCount) % (countLimit + 1) + g.edgeCount) % (countLimit + 1), .wrapping⟩ 0 0 =
      some 0 := if_pos (hg ▸ by decide)
  refine ⟨_, htable, rfl, hglobal, rfl, fun hexact => ?_⟩
  cases (hexact.toLocal_eq_some_iff 0 0 0).mpr hglobal

/-- **Hosts that cannot be counted.** A node that is doubled 63 times can still be counted, but two
such hosts are refused, or the table has nodes that belong to no host. Even of hosts that can be
counted, a number that is no node may be one when another host was pushed. -/
theorem not_isExact_doubled :
    (∀ n < 63, Fits [doubled n, doubled n]) ∧
    ofHosts .refused [doubled 63, doubled 63] = none ∧
    (∃ c, ofHosts .wrapping [doubled 63, doubled 63] = some c ∧ c.nodeCount = 0 ∧
      c.toGlobal 0 0 = some 0 ∧ c.toLocal 0 = none ∧
      ¬c.IsExact [doubled 63, doubled 63]) ∧
    ∃ c c', ofHosts .refused [doubled 0] = some c ∧ c.push (doubled 0) = some (c', 1) ∧
      c.toLocal 1 = none ∧ c'.toLocal 1 = some (1, 0) := by
  have hfits : ∀ n, Fits [doubled n, doubled n] ↔ 2 ^ n + 2 ^ n ≤ countLimit := fun n => by
    obtain ⟨hnodes, hedges⟩ := counts_doubled n
    simp [Fits, hnodes, hedges]
  refine ⟨fun n hn => (hfits n).mpr ?_, ?_, exists_ofHosts_wrapping (counts_doubled 63).1, ?_⟩
  · have hle : 2 ^ n ≤ 2 ^ 62 := Nat.pow_le_pow_right (by decide) (by omega)
    rw [countLimit]
    omega
  · rw [Option.eq_none_iff_forall_ne_some]
    intro c hc
    exact absurd ((hfits 63).mp (exists_ofHosts_refused_iff.mp ⟨c, hc⟩)) (by decide)
  · have hpair : Fits ([doubled 0] ++ [doubled 0]) := (hfits 0).mpr (by decide)
    exact ⟨_, _, ofHosts_eq hpair.of_append, push_tableOf hpair, by decide +kernel,
      by decide +kernel⟩

end HostTable

end GraphGrammar
