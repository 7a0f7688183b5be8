import Mathlib.Data.List.Basic
import Mathlib.Data.List.Nodup
import GraphGrammar.Graph.Arena

/-!
# Ranks

When some of the numbers below `n` are kept and numbered anew in their order, the new number of a
kept number is its rank: how many kept numbers are smaller.

## Main definitions

* `GraphGrammar.rank` — how many kept numbers are smaller.

## Main results

* `GraphGrammar.getElem?_numberKept` — the numbers that an arena gives.
* `GraphGrammar.getElem?_rank` — a kept number stands at its rank in the list of all of them.
-/

namespace GraphGrammar

variable {keep : Nat → Bool} {u v n : Nat}

/-- The number of kept numbers below `v`. -/
def rank (keep : Nat → Bool) (v : Nat) : Nat := (List.range v).countP keep

theorem rank_succ (keep : Nat → Bool) (v : Nat) :
    rank keep (v + 1) = rank keep v + if keep v then 1 else 0 := by
  rw [rank, List.range_succ, List.countP_append, List.countP_singleton, rank]

theorem rank_mono (keep : Nat → Bool) (h : u ≤ v) : rank keep u ≤ rank keep v := by
  induction h with
  | refl => exact Nat.le_refl _
  | step _ ih =>
    rw [rank_succ]
    omega

theorem rank_lt_rank (hu : keep u = true) (h : u < v) : rank keep u < rank keep v := by
  have := rank_mono keep (Nat.succ_le_of_lt h)
  rw [Nat.succ_eq_add_one, rank_succ, if_pos hu] at this
  omega

theorem rank_inj (hu : keep u = true) (hv : keep v = true) (h : rank keep u = rank keep v) :
    u = v := by
  rcases Nat.lt_trichotomy u v with huv | huv | huv
  · exact absurd h (Nat.ne_of_lt (rank_lt_rank hu huv))
  · exact huv
  · exact absurd h (Nat.ne_of_gt (rank_lt_rank hv huv))

theorem rank_congr {keep' : Nat → Bool} (h : ∀ u < v, keep u = keep' u) :
    rank keep v = rank keep' v := by
  refine List.countP_congr fun u hu => ?_
  rw [h u (List.mem_range.mp hu)]

/-- From where on every number is kept, ranks are counted on. -/
theorem rank_add_of_forall (h : ∀ u, n ≤ u → keep u = true) (k : Nat) :
    rank keep (n + k) = rank keep n + k := by
  induction k with
  | zero => rfl
  | succ k ih =>
    rw [← Nat.add_assoc, rank_succ, if_pos (h _ (Nat.le_add_right ..)), ih, Nat.add_assoc]

theorem length_filter_range (keep : Nat → Bool) (n : Nat) :
    ((List.range n).filter keep).length = rank keep n := List.countP_eq_length_filter.symm

/-- Numbers are kept or not. -/
theorem rank_add_rank_not (keep : Nat → Bool) (n : Nat) :
    rank keep n + rank (fun v => !keep v) n = n := by
  have hsplit := List.length_eq_countP_add_countP keep (l := List.range n)
  rw [List.length_range] at hsplit
  simpa [rank] using hsplit.symm

/-- A kept number stands at its rank in the list of all of them. -/
theorem getElem?_rank (hv : keep v = true) (h : v < n) :
    ((List.range n).filter keep)[rank keep v]? = some v := by
  induction n with
  | zero => omega
  | succ n ih =>
    rw [List.range_succ, List.filter_append]
    rcases Nat.lt_succ_iff_lt_or_eq.mp h with hlt | rfl
    · rw [List.getElem?_append_left (by rw [length_filter_range]; exact rank_lt_rank hv hlt),
        ih hlt]
    · rw [List.getElem?_append_right (Nat.le_of_eq (length_filter_range keep v)),
        length_filter_range,
        Nat.sub_self, List.filter_singleton, hv]
      rfl

/-- Every number below the number of kept ones is a rank. -/
theorem exists_rank_eq {k : Nat} (h : k < rank keep n) :
    ∃ v, v < n ∧ keep v = true ∧ rank keep v = k := by
  rw [← length_filter_range] at h
  have hmem := List.getElem_mem h
  obtain ⟨hv, hkeep⟩ := List.mem_filter.mp hmem
  refine ⟨_, List.mem_range.mp hv, hkeep, ?_⟩
  have hget := getElem?_rank hkeep (List.mem_range.mp hv)
  rw [← List.getElem?_eq_getElem h] at hget
  have hlt := (List.getElem?_eq_some_iff.mp (hget.trans (List.getElem?_eq_getElem h))).1
  exact (List.getElem?_inj hlt (List.nodup_range.filter _)).mp hget

/-! ### Numbers of flags that are set -/

theorem length_numberKept (start : Nat) (flags : List Bool) :
    (numberKept start flags).length = flags.length := by
  induction flags generalizing start with
  | nil => rfl
  | cons flag flags ih => cases flag <;> exact congrArg (· + 1) (ih _)

theorem getElem?_numberKept (start : Nat) (flags : List Bool) (v : Nat) :
    (numberKept start flags)[v]? = (flags[v]?).map fun flag =>
      if flag then some (start + rank (fun u => flags.getD u false) v) else none := by
  induction flags generalizing start v with
  | nil => simp [numberKept]
  | cons flag flags ih =>
    have hrank : ∀ v, rank (fun u => (flag :: flags).getD u false) (v + 1) =
        (if flag then 1 else 0) + rank (fun u => flags.getD u false) v := by
      intro v
      rw [rank, List.range_succ_eq_map, List.countP_cons, List.countP_map, rank]
      cases flag <;> simp [Function.comp_def, Nat.add_comm]
    cases v with
    | zero => cases flag <;> simp [numberKept, rank]
    | succ v =>
      rw [List.getElem?_cons_succ, hrank]
      cases flag
      · simp only [numberKept, List.getElem?_cons_succ, ih, Bool.false_eq_true, if_false,
          Nat.zero_add]
      · simp only [numberKept, List.getElem?_cons_succ, ih, if_true, Nat.add_assoc]

end GraphGrammar
