import GraphGrammar.Proofs.Codec.WrittenGraph
import GraphGrammar.Proofs.Graph.Bonds
import GraphGrammar.Proofs.Graph.EdgeIndex
import GraphGrammar.Proofs.Rule.Side
import GraphGrammar.Rule.SideTable

/-!
# The tables of a side and the side as a graph

Whether or not a rule is consistent, what is read of a side through its tables is what is read of
the side as a graph. In the numbers of the rule, a node of the side sees exactly those rule edges on
the side that touch it and both of whose endpoints are on the side.

## Main definitions

* `GraphGrammar.SideTable.isWithin` — the rule edges of a side.
* `GraphGrammar.SideTable.IsExact` — what the tables of a side hold.

## Main results

* `GraphGrammar.SideTable.build_eq` — the tables of a side.
* `GraphGrammar.SideTable.incident_build` — the edges around a node.
* `GraphGrammar.SideTable.isExact_build` — the tables in the numbers of the rule.
* `GraphGrammar.SideTable.build_reads_sideGraph` — both sides of a rule.
-/

namespace GraphGrammar

/-- The number of a new member is the number of those before it. -/
theorem idxOf?_append_singleton {l : List Nat} {a : Nat} (ha : a ∉ l) (v : Nat) :
    (l ++ [a]).idxOf? v = if v = a then some l.length else l.idxOf? v := by
  show (l ++ [a]).findIdx? (· == v) = if v = a then some l.length else l.findIdx? (· == v)
  rw [List.findIdx?_append]
  split
  · next hv =>
    subst hv
    have hnone : l.findIdx? (· == v) = none := List.idxOf?_eq_none_iff.mpr ha
    simp [hnone]
  · next hv => simp [Ne.symm hv]

/-- A constraint is renumbered if all of its nodes have numbers. -/
theorem Constraint.remap_eq (f : Nat → Option Nat) (c : Constraint) : c.remap f =
    if c.nodes.all fun v => (f v).isSome then some (c.mapNodes fun v => (f v).getD v)
    else none := by
  cases c with
  | nodeLabel v | nodeAdjacency v => cases hv : f v <;> simp [remap, nodes, mapNodes, hv]
  | edgeLabel a b | noEdge a b =>
    cases ha : f a <;> cases hb : f b <;> simp [remap, nodes, mapNodes, ha, hb]

namespace SideTable

variable {r : Rule} {s : Side}

/-! ### The nodes of a side -/

/-- The nodes of a list that are on a side, by their places. -/
def membersOf (s : Side) (nodes : List RuleNode) : List Nat :=
  (List.range nodes.length).filter fun v => (nodes[v]?).any fun n => s.hasNode n.role

theorem sideNodes_eq_membersOf (r : Rule) (s : Side) : r.sideNodes s = membersOf s r.nodes := by
  refine List.filter_congr fun v _ => ?_
  rw [Rule.roleOf, Option.any_map]

theorem length_notMem_membersOf (s : Side) (nodes : List RuleNode) :
    nodes.length ∉ membersOf s nodes := fun hmem =>
  absurd (List.mem_range.mp (List.mem_filter.mp hmem).1) (Nat.lt_irrefl _)

theorem membersOf_append_singleton (s : Side) (nodes : List RuleNode) (n : RuleNode) :
    membersOf s (nodes ++ [n]) =
      membersOf s nodes ++ if s.hasNode n.role then [nodes.length] else [] := by
  rw [membersOf, List.length_append, List.length_singleton, List.range_succ, List.filter_append]
  congr 1
  · refine List.filter_congr fun v hv => ?_
    rw [List.getElem?_append_left (List.mem_range.mp hv)]
  · simp [List.filter_cons]

/-- The tables of the members of a side, without edges. -/
def ofMembers (n : Nat) (members : List Nat) : SideTable :=
  ⟨members, (List.range n).map fun v => members.idxOf? v, [], 0⟩

/-- One more member gets the next number. -/
theorem ofMembers_append {members : List Nat} {n a : Nat} (ha : a ∉ members) :
    ofMembers n (members ++ [a]) = ⟨members ++ [a],
      (ofMembers n members).numbers.set a (some members.length), [], 0⟩ := by
  refine congrArg (SideTable.mk _ · _ _) (List.ext_getElem? fun v => ?_)
  simp only [ofMembers, List.getElem?_set, List.getElem?_map, List.length_map, List.length_range]
  by_cases hv : v < n
  · simp only [List.getElem?_range hv, Option.map_some, idxOf?_append_singleton ha]
    by_cases hav : a = v
    · simp [hav, hv]
    · simp [hav, Ne.symm hav]
  · rw [List.getElem?_eq_none (by simpa using hv), Option.map_none, Option.map_none]
    split
    · next hav => rw [if_neg (hav ▸ hv)]
    · rfl

/-- The nodes that are entered are numbered in their order. -/
theorem foldl_enterNode (s : Side) (nodes : List RuleNode) (n : Nat) :
    nodes.zipIdx.foldl (enterNode s) ⟨[], List.replicate n none, [], 0⟩ =
      ofMembers n (membersOf s nodes) := by
  induction nodes using List.reverseRecOn with
  | nil =>
    have hnone :
        (List.range n).map (fun v => ([] : List Nat).idxOf? v) = List.replicate n none := by
      refine List.eq_replicate_iff.mpr ⟨by simp, fun x hx => ?_⟩
      obtain ⟨v, -, rfl⟩ := List.mem_map.mp hx
      rfl
    show _ = (⟨[], (List.range n).map fun v => ([] : List Nat).idxOf? v, [], 0⟩ : SideTable)
    rw [hnone]
    rfl
  | append_singleton nodes node ih =>
    rw [List.zipIdx_append, List.foldl_append, ih, membersOf_append_singleton]
    show enterNode s _ (node, 0 + nodes.length) = _
    rw [Nat.zero_add]
    by_cases hon : s.hasNode node.role = true
    · rw [if_pos hon, enterNode, if_pos hon, ofMembers_append (length_notMem_membersOf s nodes)]
      rfl
    · rw [if_neg hon, enterNode, if_neg hon, List.append_nil]

theorem ofNodes_eq (r : Rule) (s : Side) : ofNodes r s =
    ⟨r.sideNodes s, (List.range r.nodes.length).map fun v => r.localNumber? s v,
      EdgeIndex.ofSlots (r.sideNodes s).length [], 0⟩ := by
  rw [ofNodes, foldl_enterNode, EdgeIndex.ofSlots_nil]
  simp only [Rule.localNumber?, sideNodes_eq_membersOf]
  rfl

/-- The table of numbers holds the numbers on the side. -/
theorem number?_of_numbers_eq {t : SideTable}
    (h : t.numbers = (List.range r.nodes.length).map fun v => r.localNumber? s v) (v : Nat) :
    t.number? v = r.localNumber? s v := by
  rw [number?, h, List.getElem?_map]
  by_cases hv : v < r.nodes.length
  · rw [List.getElem?_range hv]
    rfl
  · rw [List.getElem?_eq_none (by simpa using hv)]
    refine (Option.eq_none_iff_forall_ne_some.mpr fun i hi => hv ?_).symm
    have hmem := List.mem_of_getElem? (Rule.localNumber?_eq_some_iff.mp hi)
    exact List.mem_range.mp (List.mem_filter.mp hmem).1

/-! ### The edges of a side -/

/-- A rule edge is entered if it is an edge of the side, and passed over otherwise. -/
theorem enterEdge_eq {t : SideTable} (hnumber : ∀ v, t.number? v = r.localNumber? s v)
    (e : RuleEdge) (k : Nat) : enterEdge s t (e, k) =
      match r.sideEdge? s e with
      | some e' =>
        { t with index := t.index.enter e'.source e'.target k, edgeCount := t.edgeCount + 1 }
      | none => t := by
  rw [enterEdge, hnumber, hnumber, Rule.sideEdge?]
  split
  · cases r.localNumber? s e.source with
    | none => rfl
    | some a => cases r.localNumber? s e.target <;> rfl
  · rfl

/-- The tables with some of the edges of the side. -/
def withEdges (r : Rule) (s : Side) (edges : List RuleEdge) : SideTable :=
  ⟨r.sideNodes s, (List.range r.nodes.length).map fun v => r.localNumber? s v,
    EdgeIndex.ofSlots (r.sideNodes s).length (edges.map (r.sideEdge? s)),
    (edges.filterMap (r.sideEdge? s)).length⟩

/-- The edges that are entered keep the numbers that they have in the rule. -/
theorem foldl_enterEdge (r : Rule) (s : Side) (edges : List RuleEdge) :
    edges.zipIdx.foldl (enterEdge s) (withEdges r s []) = withEdges r s edges := by
  induction edges using List.reverseRecOn with
  | nil => rfl
  | append_singleton edges e ih =>
    have hnumber : ∀ v, (withEdges r s edges).number? v = r.localNumber? s v :=
      number?_of_numbers_eq rfl
    rw [List.zipIdx_append, List.foldl_append, ih]
    show enterEdge s _ (e, 0 + edges.length) = _
    rw [enterEdge_eq hnumber, Nat.zero_add, withEdges, withEdges, List.map_append,
      List.map_singleton, List.filterMap_append]
    cases hslot : r.sideEdge? s e with
    | none => simp [hslot, EdgeIndex.ofSlots_append_none]
    | some e' =>
      have henter := EdgeIndex.enter_ofSlots (r.sideNodes s).length (edges.map (r.sideEdge? s)) e'
      rw [List.length_map] at henter
      simp [hslot, henter]

/-- **The tables of a side.** -/
theorem build_eq (r : Rule) (s : Side) : build r s = withEdges r s r.edges := by
  rw [build, ofNodes_eq]
  exact foldl_enterEdge r s r.edges

/-! ### Reads -/

variable (r s)

theorem members_build : (build r s).members = r.sideNodes s := by
  rw [build_eq, withEdges]

theorem number?_build (v : Nat) : (build r s).number? v = r.localNumber? s v :=
  number?_of_numbers_eq (by rw [build_eq, withEdges]) v

/-- The edges of the side are the rule edges that are not passed over. -/
theorem present_map_sideEdge? : present (r.edges.map (r.sideEdge? s)) = (r.sideGraph s).edges :=
  List.filterMap_map ..

/-- No edge of the side touches a number that is no node of it. -/
theorem touching_map_sideEdge?_eq_nil {i : Nat} (hi : ¬i < (r.sideNodes s).length) :
    touching (r.edges.map (r.sideEdge? s)) i = [] := by
  have hseen : (r.sideGraph s).edges.filterMap (·.seenFrom i) = [] :=
    List.filterMap_eq_nil_iff.mpr fun e he => Graph.seenFrom_eq_none_of_le
      (by simpa [Rule.sideGraph, Rule.sideLabels] using hi) he
  rw [← List.length_eq_zero_iff, length_touching, present_map_sideEdge?, hseen, List.length_nil]

theorem row_build (i : Nat) :
    (build r s).index.getD i [] = touching (r.edges.map (r.sideEdge? s)) i := by
  rw [build_eq, withEdges]
  by_cases hi : i < (r.sideNodes s).length
  · exact EdgeIndex.getD_ofSlots hi
  · rw [List.getD_eq_getElem?_getD, EdgeIndex.getElem?_ofSlots, if_neg hi,
      touching_map_sideEdge?_eq_nil r s hi]
    rfl

variable {r s}

theorem sideEdge?_eq_some_iff {e : RuleEdge} {e' : Edge} : r.sideEdge? s e = some e' ↔
    s.hasEdge e.role = true ∧ r.localNumber? s e.source = some e'.source ∧
      r.localNumber? s e.target = some e'.target ∧ e.label = e'.label := by
  obtain ⟨source, target, label⟩ := e'
  rw [Rule.sideEdge?]
  split
  · next hon =>
    rw [and_iff_right hon]
    cases r.localNumber? s e.source <;> cases r.localNumber? s e.target <;> simp
  · next hoff => exact iff_of_false nofun fun h => hoff h.1

theorem eq_iff_of_localNumber? {u v i j : Nat} (hu : r.localNumber? s u = some i)
    (hv : r.localNumber? s v = some j) : u = v ↔ i = j := by
  constructor
  · rintro rfl
    exact Option.some.inj (hu.symm.trans hv)
  · rintro rfl
    rw [Rule.localNumber?_eq_some_iff] at hu hv
    exact Option.some.inj (hu.symm.trans hv)

/-- The other endpoint of an edge of the side, renumbered. -/
theorem localNumber?_other {e : RuleEdge} {e' : Edge} (h : r.sideEdge? s e = some e') {v i : Nat}
    (hv : r.localNumber? s v = some i) : r.localNumber? s (e.other v) = some (e'.other i) := by
  obtain ⟨-, hsource, htarget, -⟩ := sideEdge?_eq_some_iff.mp h
  have hends := eq_iff_of_localNumber? hsource hv
  rw [RuleEdge.other, Edge.other]
  by_cases hs : e.source = v
  · rw [if_pos hs, if_pos (hends.mp hs), htarget]
  · rw [if_neg hs, if_neg fun h => hs (hends.mpr h), hsource]

variable (r s)

/-- **The edges around a node** of a side, read through the tables. -/
theorem incident_build (i : Nat) : (build r s).incident r i = (r.sideGraph s).view.incident i := by
  rw [incident, members_build, row_build, Graph.view_incident, ← present_map_sideEdge?,
    ← filterMap_touching]
  by_cases hi : i < (r.sideNodes s).length
  · rw [List.getElem?_eq_getElem hi]
    refine List.filterMap_congr fun k hk => ?_
    obtain ⟨e', hslot, htouches⟩ := mem_touching.mp hk
    rw [hslot, Option.bind_some, Edge.seenFrom, if_pos htouches]
    rw [List.getElem?_map, Option.join_eq_some_iff, Option.map_eq_some_iff] at hslot
    obtain ⟨e, he, hedge⟩ := hslot
    have hnode : r.localNumber? s (r.sideNodes s)[i] = some i :=
      Rule.localNumber?_eq_some_iff.mpr (List.getElem?_eq_getElem hi)
    simp [he, number?_build, localNumber?_other hedge hnode, (sideEdge?_eq_some_iff.mp hedge).2.2.2]
  · rw [List.getElem?_eq_none (Nat.le_of_not_lt hi), touching_map_sideEdge?_eq_nil r s hi]
    rfl

theorem degree_build (i : Nat) : (build r s).degree i = (r.sideGraph s).view.degree i := by
  rw [degree, row_build, length_touching, present_map_sideEdge?, ← Graph.view_incident,
    GraphView.degree]

theorem edgeCount_build : (build r s).edgeCount = (r.sideGraph s).view.edgeCount := by
  rw [build_eq]
  rfl

theorem selfLoops_build (i : Nat) :
    (build r s).selfLoops r i = (r.sideGraph s).view.selfLoops i := by
  rw [selfLoops, incident_build, GraphView.selfLoops]

theorem labelsBetween_build (a b : Nat) :
    (build r s).labelsBetween r a b = (r.sideGraph s).view.labelsBetween a b := by
  rw [labelsBetween, incident_build, GraphView.labelsBetween]

theorem nodeCount_build : (build r s).members.length = (r.sideGraph s).view.nodeCount := by
  rw [members_build, Graph.view_nodeCount, Rule.labels_sideGraph, List.length_map]

theorem label_build (i : Nat) : (build r s).label r s i = (r.sideGraph s).view.label i := by
  rw [label, members_build, Graph.view_label, Rule.labels_sideGraph, List.getD_eq_getElem?_getD,
    List.getElem?_map]
  cases (r.sideNodes s)[i]? <;> rfl

/-- **A copy of the side** can be made, and is the graph of what is read. -/
theorem toGraph_build : (build r s).toGraph r s = .ok (r.sideGraph s).view.toGraph := by
  have hlabels : (List.range (build r s).members.length).map ((build r s).label r s) =
      (r.sideGraph s).view.toGraph.labels := by
    rw [nodeCount_build, GraphView.toGraph]
    exact List.map_congr_left fun i _ => label_build r s i
  have hedges : ((List.range (build r s).members.length).flatMap fun i =>
      ((build r s).incident r i).filterMap fun e =>
        if i ≤ e.node then some ⟨i, e.node, e.label⟩ else none) =
      (r.sideGraph s).view.edgeList := by
    rw [nodeCount_build, GraphView.edgeList]
    exact List.flatMap_congr fun i _ => by rw [incident_build]
  rw [toGraph, hlabels, hedges]
  exact Graph.ofParts_eq_ok_iff.mpr ⟨(r.sideGraph s).view.toGraph.endpoints_lt, rfl, rfl⟩

theorem constraints_build : (build r .left).constraints r = r.leftPattern.constraints := by
  rw [constraints, funext (number?_build r .left)]
  rfl

/-! ### Sides in the numbers of the rule -/

variable {r s}

/-- Whether a rule edge is on a side and so are its endpoints. -/
def isWithin (r : Rule) (s : Side) (e : RuleEdge) : Bool :=
  s.hasEdge e.role && r.isOn s e.source && r.isOn s e.target

/-- What the tables of a side hold, in the numbers of the rule. -/
structure IsExact (t : SideTable) (r : Rule) (s : Side) : Prop where
  /-- The members are the rule nodes on the side. -/
  mem_members : ∀ v, v ∈ t.members ↔ ∃ n, r.nodes[v]? = some n ∧ s.hasNode n.role = true
  /-- The members are numbered in ascending order. -/
  ascending : t.members.Pairwise (· < ·)
  /-- The numbering of the side and that of the rule are inverse to each other. -/
  number?_eq_some_iff : ∀ v i, t.number? v = some i ↔ t.members[i]? = some v
  /-- Rule nodes get their numbers on the side in ascending order. -/
  number?_lt_iff : ∀ v w i j, t.number? v = some i → t.number? w = some j → (v < w ↔ i < j)
  /-- A node sees the rule edges that touch it, if they are on the side and so are their endpoints,
  each once and in their order. -/
  sees : ∀ i v, t.members[i]? = some v →
    (t.incident r i).map (fun seen => (t.members[seen.node]?, seen.label)) =
      (r.edges.filter fun e => isWithin r s e && (e.source == v || e.target == v)).map
        fun e => (some (e.other v), e.label)
  /-- These edges are counted. -/
  edgeCount_eq : t.edgeCount = r.edges.countP (isWithin r s)
  /-- The degree is the number of edges that are seen. -/
  degree_eq : ∀ i, t.degree i = (t.incident r i).length
  /-- Every self-loop is counted at its one node. -/
  selfLoops_sum : sumBelow t.members.length (t.selfLoops r) =
    r.edges.countP fun e => isWithin r s e && e.isSelfLoop
  /-- Every edge that is no self-loop is counted twice. -/
  degree_sum : sumBelow t.members.length t.degree +
    (r.edges.countP fun e => isWithin r s e && e.isSelfLoop) = 2 * t.edgeCount

theorem isSome_localNumber? (r : Rule) (s : Side) (v : Nat) :
    (r.localNumber? s v).isSome = r.isOn s v := by
  rw [Bool.eq_iff_iff, Rule.isOn_eq_true_iff, ← Rule.mem_sideNodes, Option.isSome_iff_exists]
  simp only [Rule.localNumber?_eq_some_iff, List.mem_iff_getElem?]

theorem isSome_sideEdge? (r : Rule) (s : Side) (e : RuleEdge) :
    (r.sideEdge? s e).isSome = isWithin r s e := by
  rw [isWithin, ← isSome_localNumber?, ← isSome_localNumber?, Rule.sideEdge?]
  cases s.hasEdge e.role
  · rfl
  · cases r.localNumber? s e.source <;> cases r.localNumber? s e.target <;> rfl

/-- An edge of the side touches the numbers of the nodes that it touches. -/
theorem touches_eq {e : RuleEdge} {e' : Edge} (h : r.sideEdge? s e = some e') {v i : Nat}
    (hv : r.localNumber? s v = some i) : e'.touches i = (e.source == v || e.target == v) := by
  obtain ⟨-, hsource, htarget, -⟩ := sideEdge?_eq_some_iff.mp h
  rw [Edge.touches, Bool.eq_iff_iff]
  simp only [Bool.or_eq_true, beq_iff_eq, eq_iff_of_localNumber? hsource hv,
    eq_iff_of_localNumber? htarget hv]

theorem isSelfLoop_eq {e : RuleEdge} {e' : Edge} (h : r.sideEdge? s e = some e') :
    e'.isSelfLoop = e.isSelfLoop := by
  obtain ⟨-, hsource, htarget, -⟩ := sideEdge?_eq_some_iff.mp h
  rw [Edge.isSelfLoop, RuleEdge.isSelfLoop, Bool.eq_iff_iff, beq_iff_eq, beq_iff_eq,
    eq_iff_of_localNumber? hsource htarget]

/-- The self-loops of the side. -/
theorem countP_isSelfLoop_sideGraph (r : Rule) (s : Side) :
    (r.sideGraph s).edges.countP Edge.isSelfLoop =
      r.edges.countP fun e => isWithin r s e && e.isSelfLoop := by
  rw [Rule.sideGraph, List.countP_filterMap]
  refine List.countP_congr fun e _ => ?_
  rw [← isSome_sideEdge?]
  cases hedge : r.sideEdge? s e with
  | none => simp
  | some e' => simp [isSelfLoop_eq hedge]

/-- The numbers on a side are in the order of the rule nodes. -/
theorem localNumber?_lt_iff {v w i j : Nat} (hv : r.localNumber? s v = some i)
    (hw : r.localNumber? s w = some j) : v < w ↔ i < j := by
  have hmono : ∀ {v w i j : Nat}, r.localNumber? s v = some i → r.localNumber? s w = some j →
      i < j → v < w := by
    intro v w i j hv hw hij
    obtain ⟨hi, rfl⟩ := List.getElem?_eq_some_iff.mp (Rule.localNumber?_eq_some_iff.mp hv)
    obtain ⟨hj, rfl⟩ := List.getElem?_eq_some_iff.mp (Rule.localNumber?_eq_some_iff.mp hw)
    exact List.pairwise_iff_getElem.mp (List.pairwise_lt_range.filter _) i j hi hj hij
  refine ⟨fun hlt => ?_, hmono hv hw⟩
  rcases Nat.lt_trichotomy i j with hij | rfl | hji
  · exact hij
  · exact absurd ((eq_iff_of_localNumber? hv hw).mpr rfl) (Nat.ne_of_lt hlt)
  · exact absurd (hmono hw hv hji) (Nat.lt_asymm hlt)

/-- **The tables of a side** are exact. -/
theorem isExact_build (r : Rule) (s : Side) : (build r s).IsExact r s where
  mem_members v := by
    rw [members_build, Rule.mem_sideNodes]
    simp [Rule.roleOf]
  ascending := by
    rw [members_build]
    exact List.pairwise_lt_range.filter _
  number?_eq_some_iff v i := by
    rw [number?_build, members_build]
    exact Rule.localNumber?_eq_some_iff
  number?_lt_iff v w i j hv hw := by
    rw [number?_build] at hv hw
    exact localNumber?_lt_iff hv hw
  sees i v hv := by
    rw [members_build, ← Rule.localNumber?_eq_some_iff] at hv
    rw [incident_build, Graph.view_incident, members_build, Rule.sideGraph,
      List.filterMap_filterMap, List.map_filterMap, ← List.filterMap_eq_map', List.filterMap_filter]
    refine List.filterMap_congr fun e _ => ?_
    rw [← isSome_sideEdge?]
    cases hedge : r.sideEdge? s e with
    | none => simp
    | some e' =>
      have hother := Rule.localNumber?_eq_some_iff.mp (localNumber?_other hedge hv)
      rw [Option.bind_some, Edge.seenFrom, touches_eq hedge hv]
      split
      · next htouches => simp [htouches, hother, (sideEdge?_eq_some_iff.mp hedge).2.2.2]
      · next htouches => simp [htouches]
  edgeCount_eq := by
    rw [edgeCount_build, Graph.view_edgeCount, Rule.sideGraph, List.length_filterMap_eq_countP]
    exact List.countP_congr fun e _ => by rw [isSome_sideEdge?]
  degree_eq i := by rw [degree_build, incident_build, GraphView.degree]
  selfLoops_sum := by
    rw [nodeCount_build, ← countP_isSelfLoop_sideGraph, ← Graph.sumBelow_selfLoops]
    exact sumBelow_congr fun i _ => selfLoops_build r s i
  degree_sum := by
    have hsum := (r.sideGraph s).view.degree_sum
    rw [sumBelow_add] at hsum
    rw [nodeCount_build, edgeCount_build, ← hsum, ← countP_isSelfLoop_sideGraph,
      ← Graph.sumBelow_selfLoops]
    exact congrArg (· + _) (sumBelow_congr fun i _ => degree_build r s i)

/-- The constraints all of whose nodes are on the left side, renumbered. -/
theorem constraints_build_eq (r : Rule) : (build r .left).constraints r =
    (r.constraints.filter fun c => c.nodes.all (r.isOn .left)).map
      (Constraint.mapNodes fun v => ((build r .left).number? v).getD v) := by
  rw [constraints, ← List.filterMap_eq_map', List.filterMap_filter]
  refine List.filterMap_congr fun c _ => ?_
  rw [Constraint.remap_eq, funext (number?_build r .left), funext (isSome_localNumber? r .left)]

/-- **Sides are exact graphs**, for every rule, consistent or not. The tables of both sides are
exact, and what is read through them is what is read of the side as a graph. The left side has
exactly the constraints all of whose nodes are on it, renumbered. The right side can be copied, and
the copy has its labels and, between any two nodes, the labels of its edges with their
multiplicities. -/
theorem build_reads_sideGraph (r : Rule) :
    (∀ s, (build r s).IsExact r s ∧
      (build r s).members.length = (r.sideGraph s).view.nodeCount ∧
      (build r s).edgeCount = (r.sideGraph s).view.edgeCount ∧
      ∀ i, (build r s).label r s i = (r.sideGraph s).view.label i ∧
        (build r s).incident r i = (r.sideGraph s).view.incident i) ∧
    (build r .left).constraints r = r.leftPattern.constraints ∧
    (build r .left).constraints r =
      (r.constraints.filter fun c => c.nodes.all (r.isOn .left)).map
        (Constraint.mapNodes fun v => ((build r .left).number? v).getD v) ∧
    (build r .right).toGraph r .right = .ok r.rightGraph ∧
    r.rightGraph.labels =
      (List.range (build r .right).members.length).map ((build r .right).label r .right) ∧
    ∀ a b, (r.rightGraph.view.labelsBetween a b).Perm ((build r .right).labelsBetween r a b) := by
  refine ⟨fun s => ⟨isExact_build r s, nodeCount_build r s, edgeCount_build r s, fun i =>
    ⟨label_build r s i, incident_build r s i⟩⟩, constraints_build r, constraints_build_eq r,
    toGraph_build r .right, ?_, fun a b => ?_⟩
  · rw [nodeCount_build]
    exact (List.map_congr_left fun i _ => label_build r .right i).symm
  · rw [labelsBetween_build]
    exact GraphView.labelsBetween_toGraph _ a b

/-- An edge from a node of another side and one that leads to no node are passed over. -/
example : build ⟨none, [⟨.kept, "a", none⟩, ⟨.rightOnly, "b", none⟩, ⟨.leftOnly, "c", none⟩],
    [⟨1, 0, .kept, "-"⟩, ⟨2, 0, .leftOnly, "-"⟩, ⟨2, 3, .kept, "-"⟩, ⟨2, 2, .kept, "-"⟩], [], [],
    none⟩ .left = ⟨[0, 2], [some 0, none, some 1], [[1], [1, 3]], 2⟩ := by
  decide

end SideTable

end GraphGrammar
