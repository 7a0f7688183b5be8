import Mathlib.Data.List.Induction
import GraphGrammar.Graph.Indexed
import GraphGrammar.Proofs.Arena.Slots

/-!
# The numbers of edges at their endpoints

An index into which the numbers of edges were entered in ascending order holds for every node the
numbers of the edges that touch it. Edges that were passed over have numbers too, but stand nowhere
in the index.

## Main definitions

* `GraphGrammar.EdgeIndex.ofSlots` — the index of the edges in given slots.

## Main results

* `GraphGrammar.EdgeIndex.enter_ofSlots` — one more edge is entered.
* `GraphGrammar.filterMap_touching` — what a node sees along the edges that stand in its row.
-/

namespace GraphGrammar

variable {slots : List (Option Edge)} {n v k : Nat}

/-! ### Slots that touch a node -/

theorem lt_length_of_mem_touching (h : k ∈ touching slots v) : k < slots.length :=
  List.mem_range.mp (List.mem_filter.mp h).1

theorem touching_append_none (slots : List (Option Edge)) (v : Nat) :
    touching (slots ++ [none]) v = touching slots v := by
  rw [touching, touching, slotsWhere, slotsWhere, List.length_append, List.length_singleton,
    List.range_succ, List.filter_append]
  refine Eq.trans (congrArg₂ _ (List.filter_congr fun i hi => ?_) ?_) (List.append_nil _)
  · rw [List.getElem?_append_left (List.mem_range.mp hi)]
  · simp

/-- If no slot is empty, the row of a node holds the numbers of the edges that touch it. -/
theorem mem_touching_map_some {edges : List Edge} :
    k ∈ touching (edges.map some) v ↔ ∃ e, edges[k]? = some e ∧ e.touches v = true := by
  simp [mem_touching, Option.join_eq_some_iff]

/-- What is seen along the edges that stand in a row is what is seen along all edges. -/
theorem filterMap_touching (slots : List (Option Edge)) (v : Nat) :
    (touching slots v).filterMap (fun k => (slots[k]?).join.bind (·.seenFrom v)) =
      (present slots).filterMap (·.seenFrom v) := by
  induction slots using List.reverseRecOn with
  | nil => rfl
  | append_singleton slots slot ih =>
    have hbefore : (touching slots v).filterMap
        (fun k => ((slots ++ [slot])[k]?).join.bind (·.seenFrom v)) =
        (present slots).filterMap (·.seenFrom v) := by
      rw [← ih]
      refine List.filterMap_congr fun k hk => ?_
      rw [List.getElem?_append_left (lt_length_of_mem_touching hk)]
    cases slot with
    | none =>
      rw [touching_append_none, hbefore, present_append]
      exact congrArg _ (List.append_nil _).symm
    | some e =>
      rw [touching_append_singleton, List.filterMap_append, hbefore, present_append,
        List.filterMap_append]
      refine congrArg _ ?_
      by_cases he : e.touches v = true <;> simp [present, Edge.seenFrom, he]

/-- A row is as long as the list of what the node sees. -/
theorem length_touching (slots : List (Option Edge)) (v : Nat) :
    (touching slots v).length = ((present slots).filterMap (·.seenFrom v)).length := by
  rw [← filterMap_touching, List.length_filterMap_eq_countP, eq_comm, List.countP_eq_length]
  intro k hk
  obtain ⟨e, he, htouches⟩ := mem_touching.mp hk
  rw [he, Option.bind_some, Edge.seenFrom, if_pos htouches]
  rfl

namespace EdgeIndex

/-- The index of `n` nodes and of the edges in given slots. -/
def ofSlots (n : Nat) (slots : List (Option Edge)) : EdgeIndex :=
  (List.range n).map (touching slots)

@[simp]
theorem length_ofSlots (n : Nat) (slots : List (Option Edge)) : (ofSlots n slots).length = n := by
  rw [ofSlots, List.length_map, List.length_range]

theorem ofSlots_nil (n : Nat) : ofSlots n [] = List.replicate n [] := by
  rw [ofSlots, List.eq_replicate_iff]
  simp [touching, slotsWhere]

theorem getElem?_ofSlots (n : Nat) (slots : List (Option Edge)) (v : Nat) :
    (ofSlots n slots)[v]? = if v < n then some (touching slots v) else none := by
  rw [ofSlots, List.getElem?_map]
  split
  · next hv => rw [List.getElem?_range hv, Option.map_some]
  · next hv => rw [List.getElem?_eq_none (by simpa using hv), Option.map_none]

theorem getD_ofSlots (hv : v < n) : (ofSlots n slots).getD v [] = touching slots v := by
  rw [List.getD_eq_getElem?_getD, getElem?_ofSlots, if_pos hv, Option.getD_some]

/-- A node that no edge touches gets an empty row. -/
theorem ofSlots_succ (h : touching slots n = []) :
    ofSlots (n + 1) slots = ofSlots n slots ++ [[]] := by
  rw [ofSlots, List.range_succ, List.map_append, List.map_singleton, h, ← ofSlots]

/-- An edge that is passed over stands nowhere. -/
theorem ofSlots_append_none (n : Nat) (slots : List (Option Edge)) :
    ofSlots n (slots ++ [none]) = ofSlots n slots :=
  List.map_congr_left fun v _ => touching_append_none slots v

theorem getElem?_enter (index : EdgeIndex) (e : Edge) (k v : Nat) :
    (index.enter e.source e.target k)[v]? =
      if e.touches v then (index[v]?).map (· ++ [k]) else index[v]? := by
  rw [enter]
  simp only [Edge.touches]
  by_cases hloop : e.source = e.target
  · rw [if_pos hloop, List.getElem?_modify]
    by_cases hs : e.source = v
    · simp [hs]
    · simp [hs, ← hloop]
  · rw [if_neg hloop, List.getElem?_modify, List.getElem?_modify]
    by_cases hs : e.source = v
    · have ht : e.target ≠ v := fun ht => hloop (hs.trans ht.symm)
      simp [hs, ht]
    · by_cases ht : e.target = v <;> simp [hs, ht]

/-- **One more edge** is entered with the number of the next slot. -/
theorem enter_ofSlots (n : Nat) (slots : List (Option Edge)) (e : Edge) :
    (ofSlots n slots).enter e.source e.target slots.length = ofSlots n (slots ++ [some e]) := by
  refine List.ext_getElem? fun v => ?_
  rw [getElem?_enter, getElem?_ofSlots, getElem?_ofSlots, touching_append_singleton]
  by_cases hv : v < n <;> by_cases he : e.touches v = true <;> simp [hv, he]

end EdgeIndex

end GraphGrammar
