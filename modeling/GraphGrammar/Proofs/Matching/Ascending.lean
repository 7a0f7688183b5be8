import GraphGrammar.Proofs.Loops
import GraphGrammar.Proofs.Matching.Control
import GraphGrammar.Proofs.Matching.Ordered
import GraphGrammar.Proofs.Matching.Sorted

/-!
# Reports in ascending order

The image of a node that starts a component is sought among all nodes, and that of any other node
among the neighbours of an image. Several edges lead to the same neighbour, and a loop leads back,
but every neighbour is tried once, and all in ascending order. So the matches of a pattern ascend,
also under a symmetry order, which only leaves some out.

A listener hears of a part of them in the same order, whatever it decides and wherever the cap cuts
the search off, and this is also so for each of several patterns. Hence it hears of no match of a
pattern twice.

## Main results

* `GraphGrammar.GraphView.toList_neighbours` — every neighbour is tried once.
* `GraphGrammar.Pattern.occurrences_sublist` — a symmetry order leaves matches out.
* `GraphGrammar.Walk.calls_through_sublist` — what a listener hears of, in order.
* `GraphGrammar.Pattern.reports_ascend` — the matches that are reported for a pattern.
-/

namespace GraphGrammar

/-! ### Neighbours -/

/-- A set is listed like a sorted list without repetitions. -/
theorem SortedSet.toList_ofList (l : List Nat) :
    (SortedSet.ofList l).toList = l.mergeSort.eraseReps := by
  have hsorted : l.mergeSort.Pairwise (· ≤ ·) := List.pairwise_mergeSort' (· ≤ ·) l
  have hnodup := nodup_eraseReps (fun _ _ => Nat.le_antisymm) hsorted
  have hle : l.mergeSort.eraseReps.Pairwise (· ≤ ·) := hsorted.sublist (eraseReps_sublist _)
  have hlt : l.mergeSort.eraseReps.Pairwise (· < ·) :=
    (hle.and hnodup).imp fun h => Nat.lt_of_le_of_ne h.1 h.2
  refine (SortedSet.ofList l).ascending.eq_of_mem_iff hlt fun a => ?_
  rw [SortedSet.mem_ofList, mem_eraseReps, List.mem_mergeSort]

/-- **Every neighbour is tried once**, however many edges lead to it. -/
theorem GraphView.toList_neighbours (g : GraphView) (v : Nat) :
    (g.neighbours v).toList = (((g.incident v).map (·.node)).mergeSort).eraseReps :=
  SortedSet.toList_ofList _

/-! ### Matches under a symmetry order -/

namespace Pattern

variable {p : Pattern} {t : GraphView}

/-- **A symmetry order** leaves matches out, and keeps the order of the others. -/
theorem occurrences_sublist (hp : p.inRange = true) (order : Option SymmetryOrder) :
    (p.occurrences order t).Sublist (p.occurrences none t) := by
  cases order with
  | none => exact .refl _
  | some o =>
    by_cases hsize : o.size = p.graph.nodeCount
    · rw [occurrences_some_eq_filter hp hsize]
      exact List.filter_sublist
    · have hfilter : (some o).filter (fun o => o.size == p.graph.nodeCount) = none := by
        rw [Option.filter_some, beq_false_of_ne hsize, if_neg Bool.false_ne_true]
      rw [occurrences, occurrences, hfilter]
      exact .refl _

end Pattern

/-! ### What a listener hears of -/

variable {σ : Type}

namespace Walk

variable (report : Listener σ) (maxHits : Nat) (w : Walk σ)

/-- The calls for a list are for its first hits. -/
theorem exists_calls_untilHalted_eq (hits : List Hit) : ∃ first, first <+: hits ∧
    (untilHalted (call report maxHits) hits w).1.calls = w.calls ++ first := by
  induction hits generalizing w with
  | nil => exact ⟨[], List.nil_prefix, (List.append_nil _).symm⟩
  | cons hit hits ih =>
    rw [untilHalted_step]
    by_cases hfull : w.calls.length = maxHits
    · rw [call_of_full hfull]
      exact ⟨[], List.nil_prefix, (List.append_nil _).symm⟩
    · rw [call_of_not_full hfull]
      have hone : [hit] <+: hit :: hits := (List.prefix_cons_inj hit).mpr List.nil_prefix
      rcases hnext : report w.state hit with ⟨state, _ | _ | _⟩
      · obtain ⟨first, hfirst, hcalls⟩ := ih ⟨state, w.calls ++ [hit]⟩
        refine ⟨hit :: first, (List.prefix_cons_inj hit).mpr hfirst, ?_⟩
        simpa using hcalls
      · exact ⟨[hit], hone, rfl⟩
      · exact ⟨[hit], hone, rfl⟩

/-- **The calls of a walk** are for hits of the lists, in the order of the lists. -/
theorem exists_calls_through_eq (lists : List (List Hit)) : ∃ heard, heard.Sublist lists.flatten ∧
    (w.through report maxHits lists).calls = w.calls ++ heard := by
  induction lists generalizing w with
  | nil => exact ⟨[], .slnil, (List.append_nil _).symm⟩
  | cons hits rest ih =>
    obtain ⟨first, hfirst, hcalls⟩ := exists_calls_untilHalted_eq report maxHits w hits
    rcases hnext : untilHalted (call report maxHits) hits w with ⟨w', decision⟩
    rw [hnext] at hcalls
    rw [List.flatten_cons]
    by_cases hstop : decision = .stop
    · rw [through_cons_of_eq_stop (hstop ▸ hnext)]
      exact ⟨first, hfirst.sublist.trans (List.sublist_append_left ..), hcalls⟩
    · rw [through_cons_of_ne_stop hnext hstop]
      obtain ⟨heard, hheard, hrest⟩ := ih w'
      refine ⟨first ++ heard, hfirst.sublist.append hheard, ?_⟩
      rw [hrest, hcalls, List.append_assoc]

theorem calls_through_sublist (lists : List (List Hit)) (state : σ) :
    (through report maxHits lists ⟨state, []⟩).calls.Sublist lists.flatten := by
  obtain ⟨heard, hheard, hcalls⟩ := exists_calls_through_eq report maxHits ⟨state, []⟩ lists
  rw [hcalls]
  exact hheard

end Walk

/-- The matches of the pattern with number `id` among the hits. -/
def matchesOf (id : Nat) (hits : List Hit) : List (List Nat) :=
  (hits.filter fun hit => hit.pattern == id).map (·.occurrence.images)

theorem matchesOf_sublist (id : Nat) {hits hits' : List Hit} (h : hits.Sublist hits') :
    (matchesOf id hits).Sublist (matchesOf id hits') :=
  (h.filter _).map _

theorem matchesOf_append (id : Nat) (hits hits' : List Hit) :
    matchesOf id (hits ++ hits') = matchesOf id hits ++ matchesOf id hits' := by
  rw [matchesOf, List.filter_append, List.map_append]
  rfl

theorem matchesOf_hits (p : Pattern) (order : Option SymmetryOrder) (t : GraphView) (id i : Nat) :
    matchesOf i (p.hits order t id) = if id = i then p.occurrences order t else [] := by
  rw [matchesOf, Pattern.hits, List.filter_map, List.map_map]
  split
  · next h =>
    subst h
    simp [Function.comp_def]
  · next h => simp [Function.comp_def, h]

/-- Among the hits of several patterns, the matches of each are as they are found. -/
theorem matchesOf_flatten_hitLists (t : GraphView)
    (patterns : List (Pattern × Option SymmetryOrder)) (i : Nat) :
    matchesOf i (hitLists t 0 patterns).flatten =
      ((patterns[i]?).map fun p => p.1.occurrences p.2 t).getD [] := by
  induction patterns using List.reverseRecOn with
  | nil => rfl
  | append_singleton patterns p ih =>
    have hlast : hitLists t 0 (patterns ++ [p]) =
        hitLists t 0 patterns ++ [p.1.hits p.2 t patterns.length] := by
      simp [hitLists, List.zipIdx_append]
    rw [hlast, List.flatten_append, List.flatten_singleton, matchesOf_append, ih, matchesOf_hits]
    rcases Nat.lt_trichotomy i patterns.length with hlt | rfl | hgt
    · rw [List.getElem?_append_left hlt, if_neg hlt.ne', List.append_nil]
    · simp
    · have hout : (patterns ++ [p])[i]? = none := List.getElem?_eq_none (by simpa using hgt)
      rw [hout, List.getElem?_eq_none hgt.le, if_neg hgt.ne, List.append_nil]

/-- The calls of a search for several patterns are those of a walk. -/
theorem calls_searchAll (report : Listener σ) (maxHits : Nat)
    (patterns : List (Pattern × Option SymmetryOrder)) (t : GraphView) (state : σ) :
    (searchAll maxHits report.recording patterns t (state, [])).state.2 =
      (Walk.through report maxHits (hitLists t 0 patterns) ⟨state, []⟩).calls := by
  have hsearch : searchAll maxHits report.recording patterns t (state, []) = _ :=
    searchFrom_tally report.recording (w := ⟨(state, []), []⟩) (Nat.zero_le _) 0 patterns
  have hrecorded : Walk.through report.recording maxHits (hitLists t 0 patterns)
      ⟨(state, []), []⟩ = (Walk.through report maxHits (hitLists t 0 patterns)
        ⟨state, []⟩).recorded := Walk.through_recording (w := ⟨state, []⟩) _
  rw [hsearch, hrecorded]
  rfl

/-- A search for one pattern is a search for several. -/
theorem searchAll_singleton (report : Listener σ) (maxHits : Nat) (p : Pattern)
    (order : Option SymmetryOrder) (t : GraphView) (state : σ) :
    searchAll maxHits report [(p, order)] t state = searchOne maxHits report p order t state := by
  rw [searchAll, searchFrom, searchOne]
  split
  · next h => rw [searchPattern, if_pos h]
  · rcases searchPattern report t 0 p order ⟨state, maxHits, 0⟩ with ⟨s, _ | _ | _⟩ <;> rfl

namespace Pattern

variable {p : Pattern} {t : GraphView}

/-- A part of the matches in the same order ascends, and has no match twice. -/
theorem ascending_of_sublist (hp : p.inRange = true) (order : Option SymmetryOrder)
    {found : List (List Nat)} (h : found.Sublist (p.occurrences order t)) :
    found.Pairwise (fun m m' => p.placedImages m < p.placedImages m') ∧ found.Nodup := by
  have hascending := (pairwise_occurrences hp).sublist (h.trans (occurrences_sublist hp order))
  refine ⟨hascending, hascending.imp fun {m m'} hlt heq => ?_⟩
  rw [heq] at hlt
  exact List.lt_irrefl _ hlt

/-- **The matches that are reported** for a pattern ascend in lexicographic order of their images,
read in the order in which the nodes are placed, so that no match is reported twice. This is so
whatever the listener decides, under every symmetry order and with every cap, and when several
patterns are searched for, for each of them. -/
theorem reports_ascend (hp : p.inRange = true) (t : GraphView) (report : Listener σ)
    (maxHits : Nat) (state : σ) :
    p.placingOrder.Perm (List.range p.graph.nodeCount) ∧
    (∀ order : Option SymmetryOrder,
      let calls := (searchOne maxHits report.recording p order t (state, [])).state.2
      let found := calls.map (·.occurrence.images)
      found.Pairwise (fun m m' => p.placedImages m < p.placedImages m') ∧ found.Nodup) ∧
    ∀ (patterns : List Pattern) (orders : List (Option SymmetryOrder)) (i : Nat),
      patterns[i]? = some p →
      let calls := (searchAll maxHits report.recording (withOrders patterns orders) t
        (state, [])).state.2
      let found := matchesOf i calls
      found.Pairwise (fun m m' => p.placedImages m < p.placedImages m') ∧ found.Nodup := by
  refine ⟨p.placingOrder_perm, fun order => ?_, fun patterns orders i hi => ?_⟩
  · intro calls found
    have hcalls : calls.Sublist (p.hits order t 0) := by
      have hsub := Walk.calls_through_sublist report maxHits (hitLists t 0 [(p, order)]) state
      rw [← calls_searchAll, searchAll_singleton] at hsub
      simpa [hitLists] using hsub
    refine ascending_of_sublist hp order (t := t) ?_
    rw [← map_images_hits p order t 0]
    exact hcalls.map _
  · intro calls found
    have hsub := matchesOf_sublist i (Walk.calls_through_sublist report maxHits
      (hitLists t 0 (withOrders patterns orders)) state)
    rw [← calls_searchAll, matchesOf_flatten_hitLists, getElem?_withOrders, hi] at hsub
    exact ascending_of_sublist hp _ hsub

end Pattern

/-- An edge whose second node has another label than `b`, and is placed first for that. -/
def Pattern.marked : Pattern :=
  ⟨(⟨["*", "*"], [⟨1, 0, "-"⟩], by decide⟩ : Graph).view,
    [.nodeLabel 1 (SortedSet.ofList ["b"]) .forbidden], some "*"⟩

/-- Two nodes with two edges between them and a loop, and a third node. -/
def Graph.doubledEdge : Graph :=
  ⟨["a", "a", "b"], [⟨0, 1, "-"⟩, ⟨1, 0, "-"⟩, ⟨0, 0, "-"⟩, ⟨1, 2, "-"⟩], by decide⟩

/-- The images of the second node ascend, and for each of them those of the first. -/
theorem reports_ascend_marked :
    Pattern.marked.inRange = true ∧ Pattern.marked.placingOrder = [1, 0] ∧
    (searchOne 5 storeHits.recording Pattern.marked none Graph.doubledEdge.view
      ([], [])).state.2.map (·.occurrence.images) = [[1, 0], [0, 1], [2, 1]] ∧
    [[1, 0], [0, 1], [2, 1]].Pairwise (fun m m' =>
      Pattern.marked.placedImages m < Pattern.marked.placedImages m') ∧
    [[1, 0], [0, 1], [2, 1]].Nodup := by
  have hp : Pattern.marked.inRange = true := by decide +kernel
  have horder : Pattern.marked.placingOrder = [1, 0] := by decide +kernel
  have hfound : (searchOne 5 storeHits.recording Pattern.marked none Graph.doubledEdge.view
      ([], [])).state.2.map (·.occurrence.images) = [[1, 0], [0, 1], [2, 1]] := by decide +kernel
  have hascend := (Pattern.reports_ascend hp Graph.doubledEdge.view storeHits 5 []).2.1 none
  rw [← hfound]
  exact ⟨hp, horder, rfl, hascend⟩

end GraphGrammar
