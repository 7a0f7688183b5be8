import Mathlib.Logic.Relation
import Mathlib.Order.Defs.LinearOrder
import GraphGrammar.Graph.DisjointSets

/-!
# Uniting disjoint sets

Uniting two numbers gives all members of both sets the smaller of the two roots, and leaves all
other roots as they are. Hence numbers have the same root, after many pairs were united, exactly
when the pairs lead from the one to the other.

## Main results

* `GraphGrammar.DisjointSets.root_compress` — compressing changes no root.
* `GraphGrammar.DisjointSets.root_union` — the roots after two sets were united.
* `GraphGrammar.DisjointSets.root_unionAll_of_mem`, `of_root_unionAll_eq`,
  `root_unionAll_singletons_iff` — the sets after many pairs were united. -/

namespace GraphGrammar

namespace DisjointSets

variable {s : DisjointSets} {i j : Nat}

theorem root_of_le (h : s.parent.size ≤ i) : s.root i = i := by
  rw [root, dif_neg (Nat.not_lt.mpr h)]

theorem root_root (s : DisjointSets) (i : Nat) : s.root (s.root i) = s.root i := by
  fun_induction root s i with
  | case1 i h hlt ih => exact ih
  | case2 i h hge => rw [root, dif_pos h, if_neg hge]
  | case3 i h => exact root_of_le (Nat.le_of_not_lt h)

theorem root_lt (h : i < s.parent.size) : s.root i < s.parent.size :=
  Nat.lt_of_le_of_lt (s.root_le i) h

@[simp]
theorem size_redirect {p : Nat} (h : p ≤ i) : (s.redirect i p h).parent.size = s.parent.size := by
  simp [redirect]

@[simp]
theorem size_compress (s : DisjointSets) (i : Nat) :
    (s.compress i).parent.size = s.parent.size := by
  fun_induction compress s i with
  | case1 i h hlt ih => rw [size_redirect, ih]
  | case2 | case3 => rfl

theorem union_eq (s : DisjointSets) (a b : Nat) : s.union a b =
    if h : s.root a ≤ (s.compress a).root b then
      ((s.compress a).compress b).redirect ((s.compress a).root b) (s.root a) h
    else ((s.compress a).compress b).redirect (s.root a) ((s.compress a).root b)
      (Nat.le_of_not_le h) := rfl

@[simp]
theorem size_union (s : DisjointSets) (a b : Nat) :
    (s.union a b).parent.size = s.parent.size := by
  rw [union_eq]
  split <;> simp

@[simp]
theorem size_singletons (n : Nat) : (singletons n).parent.size = n := by
  simp [singletons]

theorem root_singletons (n i : Nat) : (singletons n).root i = i := by
  rw [root]
  split
  · next h =>
    rw [if_neg]
    simp [singletons]
  · rfl

/-! ### Redirecting -/

/-- Redirecting a number changes the way from it only. -/
theorem root_redirect_step {p : Nat} (h : p ≤ i) (hj : j < s.parent.size) :
    (s.redirect i p h).root j =
      if i = j then (if p < j then (s.redirect i p h).root p else j)
      else if s.parent[j] < j then (s.redirect i p h).root s.parent[j] else j := by
  have hj' : j < (s.redirect i p h).parent.size := by simpa using hj
  have hget : (s.redirect i p h).parent[j] = if i = j then p else s.parent[j] :=
    Array.getElem_setIfInBounds (by simpa using hj)
  rw [root, dif_pos hj', hget]
  by_cases hij : i = j
  · rw [if_pos hij, if_pos hij]
  · rw [if_neg hij, if_neg hij]

/-- Redirecting a number to its root changes no root. -/
theorem root_redirect_root {p : Nat} (h : p ≤ i) (hp : s.root i = p) (j : Nat) :
    (s.redirect i p h).root j = s.root j := by
  induction j using Nat.strongRecOn with
  | ind j ih =>
    rcases Nat.lt_or_ge j s.parent.size with hj | hj
    · rw [root_redirect_step h hj]
      by_cases hij : i = j
      · subst hij
        rw [if_pos rfl, hp]
        split
        · next hlt => rw [ih _ hlt, ← hp, root_root]
        · next hge => exact Nat.le_antisymm (Nat.le_of_not_lt hge) h
      · rw [if_neg hij, root.eq_1 s j, dif_pos hj]
        split
        · next hlt => exact ih _ hlt
        · rfl
    · rw [root_of_le hj, root_of_le (by simpa using hj)]

/-- Redirecting a root to a smaller one gives all members of its set that root. -/
theorem root_redirect {p : Nat} (hi : i < s.parent.size) (hroot : s.root i = i) (hp : s.root p = p)
    (h : p ≤ i) : (s.redirect i p h).root j = if s.root j = i then p else s.root j := by
  have hself : (s.redirect i p h).root p = p := by
    rw [root_redirect_step h (Nat.lt_of_le_of_lt h hi)]
    by_cases hip : i = p
    · rw [if_pos hip, if_neg (Nat.lt_irrefl p)]
    · have hp' := hp
      rw [root, dif_pos (Nat.lt_of_le_of_lt h hi)] at hp'
      rw [if_neg hip]
      split
      · next hlt =>
        rw [if_pos hlt] at hp'
        have hlt' : p < s.parent.size := Nat.lt_of_le_of_lt h hi
        have := s.root_le s.parent[p]
        omega
      · rfl
  induction j using Nat.strongRecOn with
  | ind j ih =>
    rcases Nat.lt_or_ge j s.parent.size with hj | hj
    · rw [root_redirect_step h hj]
      by_cases hij : i = j
      · subst hij
        rw [if_pos rfl, if_pos hroot]
        split
        · exact hself
        · next hge => exact Nat.le_antisymm (Nat.le_of_not_lt hge) h
      · rw [if_neg hij]
        have hstep : s.root j = if s.parent[j] < j then s.root s.parent[j] else j := by
          rw [root, dif_pos hj]
        split
        · next hlt => rw [ih _ hlt, hstep, if_pos hlt]
        · next hge => rw [hstep, if_neg hge, if_neg (Ne.symm hij)]
    · rw [root_of_le (by simpa using hj), root_of_le hj, if_neg (by omega)]

/-! ### Finding and uniting -/

/-- **Compressing a way** changes no root. -/
theorem root_compress (s : DisjointSets) (i j : Nat) : (s.compress i).root j = s.root j := by
  fun_induction compress s i generalizing j with
  | case1 i h hlt ih => rw [root_redirect_root _ (ih i), ih j]
  | case2 | case3 => rfl

/-- **Uniting two sets** gives their members the smaller root. -/
theorem root_union {a b : Nat} (ha : a < s.parent.size) (hb : b < s.parent.size) (j : Nat) :
    (s.union a b).root j = if s.root j = max (s.root a) (s.root b) then
      min (s.root a) (s.root b) else s.root j := by
  have hroots : ∀ j, ((s.compress a).compress b).root j = s.root j := fun j => by
    rw [root_compress, root_compress]
  have hroot : ∀ {i}, ((s.compress a).compress b).root (s.root i) = s.root i := fun {i} => by
    rw [hroots, root_root]
  rw [union_eq]
  simp only [root_compress]
  rcases Nat.le_total (s.root a) (s.root b) with hle | hle
  · rw [Nat.max_eq_right hle, Nat.min_eq_left hle, dif_pos hle,
      root_redirect (by simpa using root_lt hb) hroot hroot, hroots]
  · rw [Nat.max_eq_left hle, Nat.min_eq_right hle]
    by_cases heq : s.root a ≤ s.root b
    · rw [dif_pos heq, root_redirect (by simpa using root_lt hb) hroot hroot, hroots,
        Nat.le_antisymm heq hle]
    · rw [dif_neg heq, root_redirect (by simpa using root_lt ha) hroot hroot, hroots]

/-- The sets after pairs of numbers were united one after the other. -/
def unionAll (s : DisjointSets) (pairs : List (Nat × Nat)) : DisjointSets :=
  pairs.foldl (fun s pair => s.union pair.1 pair.2) s

/-- What is in one set stays in one set. -/
theorem root_unionAll_eq {pairs : List (Nat × Nat)}
    (hlt : ∀ pair ∈ pairs, pair.1 < s.parent.size ∧ pair.2 < s.parent.size)
    (h : s.root i = s.root j) : (s.unionAll pairs).root i = (s.unionAll pairs).root j := by
  induction pairs generalizing s with
  | nil => exact h
  | cons pair pairs ih =>
    obtain ⟨ha, hb⟩ := hlt pair (List.mem_cons_self ..)
    refine ih (fun pair' hpair' => ?_) (by rw [root_union ha hb, root_union ha hb, h])
    rw [size_union]
    exact hlt pair' (List.mem_cons_of_mem _ hpair')

/-- The numbers of a pair that was united are in one set. -/
theorem root_unionAll_of_mem {pairs : List (Nat × Nat)}
    (hlt : ∀ pair ∈ pairs, pair.1 < s.parent.size ∧ pair.2 < s.parent.size) {pair : Nat × Nat}
    (hpair : pair ∈ pairs) : (s.unionAll pairs).root pair.1 = (s.unionAll pairs).root pair.2 := by
  induction pairs generalizing s with
  | nil => exact absurd hpair List.not_mem_nil
  | cons first pairs ih =>
    have hlt' : ∀ pair ∈ pairs, pair.1 < (s.union first.1 first.2).parent.size ∧
        pair.2 < (s.union first.1 first.2).parent.size := fun pair hpair => by
      rw [size_union]
      exact hlt pair (List.mem_cons_of_mem _ hpair)
    rcases List.mem_cons.mp hpair with rfl | hpair
    · obtain ⟨ha, hb⟩ := hlt pair (List.mem_cons_self ..)
      refine root_unionAll_eq (s := s.union pair.1 pair.2) hlt' ?_
      rw [root_union ha hb, root_union ha hb]
      split <;> split <;> omega
    · exact ih hlt' hpair

/-- **What is in one set** is related by every equivalence relation that holds in the sets at first
and for the pairs. -/
theorem of_root_unionAll_eq {R : Nat → Nat → Prop} (hR : Equivalence R) {pairs : List (Nat × Nat)}
    (hlt : ∀ pair ∈ pairs, pair.1 < s.parent.size ∧ pair.2 < s.parent.size)
    (hs : ∀ {i j}, s.root i = s.root j → R i j) (hpairs : ∀ pair ∈ pairs, R pair.1 pair.2)
    (h : (s.unionAll pairs).root i = (s.unionAll pairs).root j) : R i j := by
  induction pairs generalizing s with
  | nil => exact hs h
  | cons pair pairs ih =>
    obtain ⟨ha, hb⟩ := hlt pair (List.mem_cons_self ..)
    refine ih (s := s.union pair.1 pair.2) (fun pair' hpair' => ?_) (fun {i j} heq => ?_)
      (fun pair' hpair' => hpairs pair' (List.mem_cons_of_mem _ hpair')) h
    · rw [size_union]
      exact hlt pair' (List.mem_cons_of_mem _ hpair')
    · have hab : R pair.1 pair.2 := hpairs pair (List.mem_cons_self ..)
      -- Every number is related to one with the root that it has afterwards.
      have hafter : ∀ k, ∃ k', R k k' ∧ s.root k' = (s.union pair.1 pair.2).root k := by
        intro k
        rw [root_union ha hb]
        split
        · next hk =>
          rcases Nat.le_total (s.root pair.1) (s.root pair.2) with hle | hle
          · rw [Nat.max_eq_right hle] at hk
            exact ⟨pair.1, hR.trans (hs hk) (hR.symm hab), (Nat.min_eq_left hle).symm⟩
          · rw [Nat.max_eq_left hle] at hk
            exact ⟨pair.2, hR.trans (hs hk) hab, (Nat.min_eq_right hle).symm⟩
        · exact ⟨k, hR.refl k, rfl⟩
      obtain ⟨i', hi, hi'⟩ := hafter i
      obtain ⟨j', hj, hj'⟩ := hafter j
      exact hR.trans hi (hR.trans (hs (hi'.trans (heq.trans hj'.symm))) (hR.symm hj))

/-- **What pairs unite** are the classes of the equivalence relation that they generate. -/
theorem root_unionAll_singletons_iff {n : Nat} {pairs : List (Nat × Nat)}
    (hlt : ∀ pair ∈ pairs, pair.1 < n ∧ pair.2 < n) :
    ((singletons n).unionAll pairs).root i = ((singletons n).unionAll pairs).root j ↔
      Relation.EqvGen (fun u v => (u, v) ∈ pairs) i j := by
  have hlt' : ∀ pair ∈ pairs, pair.1 < (singletons n).parent.size ∧
      pair.2 < (singletons n).parent.size := by
    rwa [size_singletons]
  constructor
  · refine of_root_unionAll_eq (Relation.EqvGen.is_equivalence _) hlt' (fun {i j} heq => ?_)
      fun pair hpair => .rel _ _ hpair
    rw [root_singletons, root_singletons] at heq
    exact heq ▸ .refl i
  · intro h
    induction h with
    | rel u v h => exact root_unionAll_of_mem hlt' h
    | refl u => rfl
    | symm u v _ ih => exact ih.symm
    | trans u v w _ _ ih ih' => exact ih.trans ih'

end DisjointSets

end GraphGrammar
