import GraphGrammar.Proofs.Matching.Blocks
import GraphGrammar.Search.PlacingTable

/-!
# Placing by tables

The numbers in the table are those of the edges to placed nodes: a node that is placed passes one on
along each of its edges, and between two nodes both of them list as many. So the best node of the
frontier, or of all nodes if the frontier is empty, is the one that precedes all other remaining
nodes, and by tables the nodes are placed in the same order as by counting edges anew.

## Main definitions

* `GraphGrammar.PlacingTable.Tracks` — the table is right about the nodes that were placed.

## Main results

* `GraphGrammar.GraphView.nextOpen?_eq` — the next node.
* `GraphGrammar.PlacingTable.Tracks.place` — a node is placed.
* `GraphGrammar.PlacingTable.Tracks.order_placeAll` — all nodes are placed.
* `GraphGrammar.GraphView.tableOrder_eq` — the whole order.
-/

namespace GraphGrammar

/-! ### The best of a list -/

theorem foldl_ite_mem (replace : Nat → Nat → Bool) (v : Nat) (l : List Nat) :
    l.foldl (fun best w => if replace best w then w else best) v ∈ v :: l := by
  induction l generalizing v with
  | nil => exact List.mem_cons_self ..
  | cons b l ih =>
    rw [List.foldl_cons]
    rcases List.mem_cons.mp (ih (if replace v b then b else v)) with h | h
    · rw [h]
      split <;> simp
    · exact List.mem_cons_of_mem _ (List.mem_cons_of_mem _ h)

/-- The last of the greatest members is better than all others, if the later of two members is
better unless it is smaller. -/
theorem exists_lastMax_eq {R : Nat → Nat → Prop} (htrans : ∀ {a b c}, R a b → R b c → R a c)
    (cmp : Nat → Nat → Ordering) {l : List Nat} (hne : l ≠ [])
    (h : l.Pairwise fun a b => if (cmp a b).isLE = true then R b a else R a b) :
    ∃ v ∈ l, lastMax cmp l = some v ∧ ∀ w ∈ l, w = v ∨ R v w := by
  cases l with
  | nil => exact absurd rfl hne
  | cons v l => exact ⟨_, foldl_ite_mem _ v l, rfl, foldl_best (R := R) htrans h⟩

/-! ### The next node -/

namespace PlacingTable

variable {g : GraphView} {s : PlacingTable} {v w : Nat}

/-- The table `s` is right about the nodes of `g` that were placed. -/
structure Tracks (g : GraphView) (s : PlacingTable) : Prop where
  /-- No node was placed twice. -/
  nodup : s.order.Nodup
  /-- The placed nodes are nodes. -/
  lt_nodeCount : ∀ v ∈ s.order, v < g.nodeCount
  /-- All other nodes are open. -/
  isOpen_iff : ∀ v, s.isOpen v = true ↔ v < g.nodeCount ∧ v ∉ s.order
  /-- There is a number for every node. -/
  length_links : s.links.length = g.nodeCount
  /-- The number of an open node is that of its edges to placed nodes. -/
  linksOf_eq : ∀ v, s.isOpen v = true → s.linksOf v = g.linksInto s.order v

/-- The nodes that were not placed yet, in ascending order. -/
def remaining (g : GraphView) (s : PlacingTable) : List Nat :=
  (List.range g.nodeCount).filter s.isOpen

end PlacingTable

namespace GraphView

open PlacingTable

variable {g : GraphView} {weight : Nat → Nat} {s : PlacingTable} {v w : Nat}

/-- Of two nodes the later one is taken exactly if it is better. -/
theorem precedesAsSeed_of_compareSeeds (g : GraphView) (weight : Nat → Nat) (h : v < w) :
    if (g.compareSeeds weight v w).isLE = true then g.PrecedesAsSeed weight w v
    else g.PrecedesAsSeed weight v w := by
  simp only [compareSeeds, PrecedesAsSeed, Ordering.isLE_iff_ne_gt, Ordering.then_eq_gt,
    Nat.compare_eq_gt, Nat.compare_eq_eq]
  split <;> omega

theorem precedes_of_compareLinked (weight : Nat → Nat) (hs : s.Tracks g) (hv : s.isOpen v = true)
    (hw : s.isOpen w = true) (h : v < w) :
    if (g.compareLinked weight s v w).isLE = true then g.Precedes weight s.order w v
    else g.Precedes weight s.order v w := by
  simp only [compareLinked, compareSeeds, Precedes, PrecedesAsSeed, Ordering.isLE_iff_ne_gt,
    Ordering.then_eq_gt, Nat.compare_eq_gt, Nat.compare_eq_eq, hs.linksOf_eq v hv,
    hs.linksOf_eq w hw]
  split <;> omega

/-- **The next node** by the table is one that precedes all other remaining nodes. -/
theorem exists_nextOpen?_eq (weight : Nat → Nat) (hs : s.Tracks g) (hne : remaining g s ≠ []) :
    ∃ v ∈ remaining g s, g.nextOpen? weight s = some v ∧
      ∀ w ∈ remaining g s, w = v ∨ g.Precedes weight s.order v w := by
  have hopen : ∀ v ∈ remaining g s, s.isOpen v = true := fun v hv => (List.mem_filter.mp hv).2
  have hsorted : (remaining g s).Pairwise (· < ·) := List.pairwise_lt_range.filter _
  have hlinks : ∀ v ∈ remaining g s, s.linksOf v = g.linksInto s.order v := fun v hv =>
    hs.linksOf_eq v (hopen v hv)
  -- The two rules of selection.
  by_cases hfrontier : ((remaining g s).filter fun v => decide (0 < s.linksOf v)) = []
  · -- No edge leads from a remaining node to a placed one, so that all are equal in this.
    obtain ⟨v, hv, hlast, hbest⟩ := exists_lastMax_eq (R := g.PrecedesAsSeed weight)
      PrecedesAsSeed.trans (g.compareSeeds weight) hne
      (hsorted.imp fun hab => g.precedesAsSeed_of_compareSeeds weight hab)
    have hnone : ∀ w ∈ remaining g s, g.linksInto s.order w = 0 := fun w hw => by
      have hzero := List.filter_eq_nil_iff.mp hfrontier w hw
      rw [decide_eq_true_iff, hlinks w hw] at hzero
      omega
    refine ⟨v, hv, ?_, fun w hw => (hbest w hw).imp_right fun hprecedes =>
      .inr ⟨(hnone w hw).trans (hnone v hv).symm, hprecedes⟩⟩
    rw [nextOpen?, ← remaining, hfrontier]
    exact hlast
  · -- A node that is not in the frontier has no edges to placed nodes, and comes after its best.
    obtain ⟨v, hv, hlast, hbest⟩ := exists_lastMax_eq (R := g.Precedes weight s.order)
      Precedes.trans (g.compareLinked weight s) hfrontier
      ((hsorted.filter _).imp_of_mem fun ha hb hab => precedes_of_compareLinked weight hs
        (hopen _ (List.mem_of_mem_filter ha)) (hopen _ (List.mem_of_mem_filter hb)) hab)
    obtain ⟨hv, hpos⟩ := List.mem_filter.mp hv
    refine ⟨v, hv, ?_, fun w hw => ?_⟩
    · rw [nextOpen?, ← remaining, hlast]
    · by_cases hw' : 0 < s.linksOf w
      · exact hbest w (List.mem_filter.mpr ⟨hw, decide_eq_true hw'⟩)
      · rw [decide_eq_true_iff, hlinks v hv] at hpos
        rw [hlinks w hw] at hw'
        exact .inr (.inl (by omega))

/-- It is the one that is found by counting edges anew. -/
theorem nextOpen?_eq (weight : Nat → Nat) (hs : s.Tracks g) {v : Nat} {rest : List Nat}
    (h : remaining g s = v :: rest) :
    g.nextOpen? weight s = some (g.nextNode weight s.order v rest) := by
  obtain ⟨u, hu, hnext, hbest⟩ := exists_nextOpen?_eq weight hs (h ▸ List.cons_ne_nil v rest)
  have hsorted : (v :: rest).Pairwise (· < ·) := h ▸ List.pairwise_lt_range.filter _
  have hmem := g.nextNode_mem weight s.order v rest
  rw [h] at hu hbest
  rw [hnext, Option.some.injEq]
  -- Of two nodes not each can precede the other.
  rcases hbest _ hmem with heq | hprecedes
  · exact heq.symm
  · exact (g.nextNode_precedes weight s.order hsorted u hu).resolve_right hprecedes.asymm

theorem nextOpen?_eq_none (weight : Nat → Nat) (h : remaining g s = []) :
    g.nextOpen? weight s = none := by
  rw [nextOpen?, ← remaining, h]
  rfl

/-- A placed node adds the edges between it and another one. -/
theorem linksInto_append_singleton (g : GraphView) {placed : List Nat} (hv : v ∉ placed) (w : Nat) :
    g.linksInto (placed ++ [v]) w = g.linksInto placed w + (g.incident v).countP (·.node == w) := by
  have hsplit : ∀ l : List Incidence, l.countP (fun e => (placed ++ [v]).contains e.node) =
      l.countP (fun e => placed.contains e.node) + l.countP (·.node == v) := by
    intro l
    induction l with
    | nil => rfl
    | cons e l ih =>
      simp only [List.countP_cons, ih]
      by_cases hnode : e.node = v
      · simp [hnode, hv]
        omega
      · simp [hnode]
        omega
  have hswap := (g.labelsBetween_perm_swap v w).length_eq
  rw [labelsBetween, labelsBetween, List.length_map, List.length_map,
    ← List.countP_eq_length_filter, ← List.countP_eq_length_filter] at hswap
  rw [linksInto, hsplit, hswap, linksInto]

end GraphView

namespace PlacingTable

variable {g : GraphView} {weight : Nat → Nat} {s : PlacingTable} {v w : Nat}

/-! ### One node is placed -/

/-- Counting edges changes numbers only. -/
theorem foldl_countLink_frame (s : PlacingTable) (v : Nat) (l : List Incidence) :
    (l.foldl (countLink v) s).placed = s.placed ∧
      (l.foldl (countLink v) s).links.length = s.links.length := by
  induction l generalizing s with
  | nil => exact ⟨rfl, rfl⟩
  | cons e l ih =>
    have hstep : (countLink v s e).placed = s.placed ∧
        (countLink v s e).links.length = s.links.length := by
      rw [countLink]
      split
      · exact ⟨rfl, List.length_modify ..⟩
      · exact ⟨rfl, rfl⟩
    obtain ⟨hplaced, hlength⟩ := ih (countLink v s e)
    exact ⟨hplaced.trans hstep.1, hlength.trans hstep.2⟩

/-- Counting an edge adds one for the node to which it leads. -/
theorem linksOf_countLink (hw : s.isOpen w = true) (hne : w ≠ v) (hlt : w < s.links.length)
    (e : Incidence) : (countLink v s e).linksOf w = s.linksOf w + if e.node == w then 1 else 0 := by
  rw [countLink]
  by_cases hnode : e.node = w
  · subst hnode
    rw [if_pos (by simp [hne, hw])]
    simp [linksOf, List.getElem?_eq_getElem hlt]
  · split <;> simp [linksOf, hnode]

theorem linksOf_foldl_countLink (hw : s.isOpen w = true) (hne : w ≠ v) (hlt : w < s.links.length)
    (l : List Incidence) :
    (l.foldl (countLink v) s).linksOf w = s.linksOf w + l.countP (·.node == w) := by
  induction l generalizing s with
  | nil => rfl
  | cons e l ih =>
    obtain ⟨hplaced, hlength⟩ := foldl_countLink_frame s v [e]
    have hopen : (countLink v s e).isOpen w = true := by
      rw [isOpen] at hw ⊢
      exact hplaced ▸ hw
    rw [List.foldl_cons, ih hopen (hlength.symm ▸ hlt), linksOf_countLink hw hne hlt,
      List.countP_cons, Nat.add_assoc, Nat.add_comm (l.countP _)]

/-- Placing a node closes it. -/
theorem isOpen_place (g : GraphView) (s : PlacingTable) (v w : Nat) :
    (g.place s v).isOpen w = true ↔ s.isOpen w = true ∧ w ≠ v := by
  rw [isOpen, GraphView.place, (foldl_countLink_frame _ v _).1, isOpen, List.getElem?_set]
  by_cases hvw : v = w
  · subst hvw
    rw [if_pos rfl]
    split <;> simp
  · simp [hvw, Ne.symm hvw]

/-- **Placing a node** keeps the table right. -/
theorem Tracks.place (h : s.Tracks g) (hv : s.isOpen v = true) : (g.place s v).Tracks g where
  nodup := by
    rw [g.order_place]
    exact h.nodup.append (List.nodup_singleton v)
      (List.disjoint_singleton.mpr ((h.isOpen_iff v).mp hv).2)
  lt_nodeCount w hw := by
    rw [g.order_place] at hw
    rcases List.mem_append.mp hw with hw | hw
    · exact h.lt_nodeCount w hw
    · exact List.mem_singleton.mp hw ▸ ((h.isOpen_iff v).mp hv).1
  isOpen_iff w := by
    rw [isOpen_place, h.isOpen_iff, g.order_place, List.mem_append, List.mem_singleton, not_or,
      and_assoc]
  length_links := (foldl_countLink_frame _ v _).2.trans h.length_links
  linksOf_eq w hw := by
    obtain ⟨hw, hne⟩ := (isOpen_place g s v w).mp hw
    have hlt : w < s.links.length := h.length_links ▸ ((h.isOpen_iff w).mp hw).1
    have hopen : isOpen { s with placed := s.placed.set v true, order := s.order ++ [v] } w =
        true := by
      rw [isOpen] at hw ⊢
      rwa [List.getElem?_set_ne (Ne.symm hne)]
    rw [g.order_place, g.linksInto_append_singleton ((h.isOpen_iff v).mp hv).2, ← h.linksOf_eq w hw]
    exact linksOf_foldl_countLink hopen hne hlt (g.incident v)

/-- Nothing was placed yet. -/
theorem tracks_start (g : GraphView) : (start g.nodeCount).Tracks g where
  nodup := List.nodup_nil
  lt_nodeCount v hv := absurd hv List.not_mem_nil
  isOpen_iff v := by simp [isOpen, start, List.getElem?_replicate]
  length_links := List.length_replicate
  linksOf_eq v hv := by
    have hlt : v < g.nodeCount := by simpa [isOpen, start, List.getElem?_replicate] using hv
    simp [linksOf, start, GraphView.linksInto, hlt]

theorem remaining_eq_nil (h : s.Tracks g) (hlength : ¬s.order.length < g.nodeCount) :
    remaining g s = [] := by
  refine List.filter_eq_nil_iff.mpr fun v hv hopen => ((h.isOpen_iff v).mp hopen).2 ?_
  exact (perm_range_of_nodup h.nodup h.lt_nodeCount (Nat.le_of_not_lt hlength)).mem_iff.mpr hv

/-- What remains after a node was placed. -/
theorem remaining_place (g : GraphView) (s : PlacingTable) (v : Nat) :
    remaining g (g.place s v) = (remaining g s).erase v := by
  rw [remaining, remaining, (List.nodup_range.filter _).erase_eq_filter, List.filter_filter]
  refine List.filter_congr fun w _ => ?_
  rw [Bool.eq_iff_iff, isOpen_place, Bool.and_eq_true, bne_iff_ne, and_comm]

/-- **Placing all nodes** goes through them as they come by counting edges anew. -/
theorem Tracks.order_placeAll (h : s.Tracks g) :
    (g.placeAll weight s).order = s.order ++ g.arrange weight s.order (remaining g s) := by
  fun_induction GraphView.placeAll g weight s with
  | case1 s hlt u hnext ih =>
    cases hrest : remaining g s with
    | nil => rw [GraphView.nextOpen?_eq_none weight hrest] at hnext; cases hnext
    | cons v rest =>
      obtain rfl := Option.some.inj ((GraphView.nextOpen?_eq weight h hrest).symm.trans hnext)
      have hopen : s.isOpen (g.nextNode weight s.order v rest) = true :=
        (List.mem_filter.mp (hrest ▸ g.nextNode_mem weight s.order v rest)).2
      rw [ih (h.place hopen), g.order_place, remaining_place, hrest, GraphView.arrange.eq_2,
        List.append_assoc, List.singleton_append]
  | case2 s hlt hnext =>
    cases hrest : remaining g s with
    | nil => rw [GraphView.arrange, List.append_nil]
    | cons v rest =>
      rw [GraphView.nextOpen?_eq weight h hrest] at hnext
      cases hnext
  | case3 s hlt => rw [remaining_eq_nil h hlt, GraphView.arrange, List.append_nil]

end PlacingTable

/-- **By the table** the nodes are placed in the same order. -/
theorem GraphView.tableOrder_eq (g : GraphView) (weight : Nat → Nat) :
    g.tableOrder weight = g.placingOrder weight := by
  have hall : PlacingTable.remaining g (PlacingTable.start g.nodeCount) = List.range g.nodeCount :=
    List.filter_eq_self.mpr fun v hv =>
      ((PlacingTable.tracks_start g).isOpen_iff v).mpr ⟨List.mem_range.mp hv, List.not_mem_nil⟩
  rw [tableOrder, (PlacingTable.tracks_start g).order_placeAll, hall]
  rfl

end GraphGrammar
