import Mathlib.Data.List.Forall2
import Mathlib.Data.Multiset.Bind

/-!
# Lists of lists, and lists up to order

## Main results

* `GraphGrammar.exists_perm_map_eq` — the preimages of a list that was put in another order.
* `GraphGrammar.perm_range_of_nodup` — lists of all numbers below a bound.
* `GraphGrammar.map_range_getD` — a list entry by entry.
* `GraphGrammar.flatMap_filter_of_eq_nil` — rounds of a loop that give nothing may be left out.
* `GraphGrammar.flatMap_flatMap_perm` — two loops may be exchanged.
* `GraphGrammar.flatMap_eq_apply` — a loop of which at most one round gives something.
* `GraphGrammar.flatMap_range_filter` — a sorted list, key by key.
* `GraphGrammar.filter_eq_take` — a condition that is true of the first members only.
* `GraphGrammar.lookup_eq_some_iff_mem` — looking up in a list.
* `GraphGrammar.getElem?_append_singleton_eq_some_iff` — the entries of a list with one more.
* `GraphGrammar.mergeSort_eq_of_perm` — the sorted list does not depend on the order of the list.
* `GraphGrammar.nodup_eraseDups` — leaving out repetitions.
-/

namespace GraphGrammar

/-- A list that is a permutation of the images of another one lists the images of a permutation of
that one. -/
theorem exists_perm_map_eq {α β : Type} {f : α → β} {l : List α} {l' : List β}
    (h : (l.map f).Perm l') : ∃ l'' : List α, l''.Perm l ∧ l''.map f = l' := by
  have himages : List.Forall₂ (fun b a => f a = b) (l.map f) l := by
    rw [List.forall₂_map_left_iff]
    exact List.forall₂_same.mpr fun _ _ => rfl
  obtain ⟨l'', hl'', hperm⟩ := List.perm_comp_forall₂ h.symm himages
  refine ⟨l'', hperm, ?_⟩
  rw [← List.forall₂_eq_eq_eq, List.forall₂_map_left_iff]
  exact hl''.flip

/-- Distinct numbers below `n`, as many as there are, are all of them. -/
theorem perm_range_of_nodup {l : List Nat} {n : Nat} (hnodup : l.Nodup) (hlt : ∀ v ∈ l, v < n)
    (hlength : n ≤ l.length) : l.Perm (List.range n) :=
  (List.subperm_of_subset hnodup fun v hv => List.mem_range.mpr (hlt v hv)).perm_of_length_le
    (by rwa [List.length_range])

/-- A list is the list of its entries. -/
theorem map_range_getD {l : List Nat} {n : Nat} (h : l.length = n) :
    (List.range n).map (fun v => l.getD v 0) = l := by
  refine List.ext_getElem (by simp [h]) fun v _ hv => ?_
  simp [hv]

/-- Rounds of a loop that give nothing may be left out. -/
theorem flatMap_filter_of_eq_nil {α β : Type} {l : List α} {c : α → Bool} {f : α → List β}
    (h : ∀ a ∈ l, c a = false → f a = []) : (l.filter c).flatMap f = l.flatMap f := by
  induction l with
  | nil => rfl
  | cons a l ih =>
    rw [List.filter_cons, List.flatMap_cons, ← ih fun b hb => h b (List.mem_cons_of_mem _ hb)]
    cases hc : c a with
    | true => rw [if_pos rfl, List.flatMap_cons]
    | false => rw [if_neg Bool.false_ne_true, h a (List.mem_cons_self ..) hc, List.nil_append]

theorem flatMap_flatMap_perm {α β γ : Type} (l : List α) (l' : List β) (f : α → β → List γ) :
    (l.flatMap fun a => l'.flatMap (f a)).Perm (l'.flatMap fun b => l.flatMap fun a => f a b) := by
  have := Multiset.bind_bind (l : Multiset α) (l' : Multiset β)
    (f := fun a b => (f a b : Multiset γ))
  simpa only [Multiset.coe_bind, Multiset.coe_eq_coe] using this

/-- A list of lists of which at most one is not empty. -/
theorem flatMap_eq_apply {α β : Type} {l : List α} (hnodup : l.Nodup) {a : α} (ha : a ∈ l)
    {f : α → List β} (h : ∀ b ∈ l, b ≠ a → f b = []) : l.flatMap f = f a := by
  induction l with
  | nil => exact absurd ha List.not_mem_nil
  | cons b l ih =>
    obtain ⟨hb, hnodup⟩ := List.nodup_cons.mp hnodup
    rw [List.flatMap_cons]
    by_cases hab : a = b
    · subst hab
      have hrest : l.flatMap f = [] := List.flatMap_eq_nil_iff.mpr fun c hc =>
        h c (List.mem_cons_of_mem _ hc) fun heq => hb (heq ▸ hc)
      rw [hrest, List.append_nil]
    · rw [h b (List.mem_cons_self ..) (Ne.symm hab), List.nil_append]
      exact ih hnodup ((List.mem_cons.mp ha).resolve_left hab)
        fun c hc => h c (List.mem_cons_of_mem _ hc)

/-- What is sorted by a key is listed again key by key. -/
theorem flatMap_range_filter {α : Type} {key : α → Nat} {l : List α}
    (h : l.Pairwise fun a b => key a ≤ key b) (n : Nat) :
    ((List.range n).flatMap fun k => l.filter fun a => key a = k) =
      l.filter fun a => key a < n := by
  have hsplit : ∀ n, (l.filter fun a => key a < n) ++ (l.filter fun a => key a = n) =
      l.filter fun a => key a < n + 1 := by
    intro n
    induction l with
    | nil => rfl
    | cons a l ih =>
      obtain ⟨ha, hl⟩ := List.pairwise_cons.mp h
      simp only [List.filter_cons, decide_eq_true_eq]
      rcases Nat.lt_trichotomy (key a) n with hlt | heq | hgt
      · rw [if_pos hlt, if_neg (Nat.ne_of_lt hlt), if_pos (by omega), List.cons_append, ih hl]
      · have hnone : (l.filter fun a => key a < n) = [] :=
          List.filter_eq_nil_iff.mpr fun b hb => by
            have := ha b hb
            simp only [decide_eq_true_eq]
            omega
        have hrest := ih hl
        rw [hnone, List.nil_append] at hrest
        rw [if_neg (by omega), if_pos heq, if_pos (by omega), hnone, List.nil_append, hrest]
      · rw [if_neg (by omega), if_neg (by omega), if_neg (by omega), ih hl]
  induction n with
  | zero => simp
  | succ n ih =>
    rw [List.range_succ, List.flatMap_append, ih, List.flatMap_singleton, hsplit]

/-- What is true of a member only if it is true of all before it, is true of the first members. -/
theorem filter_eq_take {α : Type} {c : α → Bool} {l : List α}
    (h : l.Pairwise fun a b => c b = true → c a = true) :
    l.filter c = l.take (l.filter c).length := by
  induction l with
  | nil => rfl
  | cons a l ih =>
    obtain ⟨ha, hl⟩ := List.pairwise_cons.mp h
    cases hc : c a with
    | true => rw [List.filter_cons_of_pos hc, List.length_cons, List.take_succ_cons, ← ih hl]
    | false =>
      have hnone : (a :: l).filter c = [] :=
        List.filter_eq_nil_iff.mpr fun b hb => by
          rcases List.mem_cons.mp hb with rfl | hb
          · simp [hc]
          · exact fun hcb => Bool.false_ne_true (hc.symm.trans (ha b hb hcb))
      rw [hnone, List.length_nil, List.take_zero]

theorem getElem?_append_singleton_eq_some_iff {α : Type} {l : List α} {a b : α} {k : Nat} :
    (l ++ [a])[k]? = some b ↔ l[k]? = some b ∨ k = l.length ∧ b = a := by
  rcases Nat.lt_trichotomy k l.length with hk | rfl | hk
  · rw [List.getElem?_append_left hk, or_iff_left fun h => Nat.ne_of_lt hk h.1]
  · simp [eq_comm]
  · have hnone : (l ++ [a])[k]? = none :=
      List.getElem?_eq_none (by simpa using Nat.succ_le_of_lt hk)
    simp [hnone, Nat.le_of_lt hk, Nat.ne_of_gt hk]

/-- Looking up finds what is listed, where nothing is listed twice under one key. -/
theorem lookup_eq_some_iff_mem {κ α : Type} [BEq κ] [LawfulBEq κ] {l : List (κ × α)}
    (h : ∀ {k a a'}, (k, a) ∈ l → (k, a') ∈ l → a = a') {k : κ} {a : α} :
    l.lookup k = some a ↔ (k, a) ∈ l := by
  induction l with
  | nil => simp
  | cons first l ih =>
    obtain ⟨k', a'⟩ := first
    have hl := ih fun hmem hmem' => h (List.mem_cons_of_mem _ hmem) (List.mem_cons_of_mem _ hmem')
    rw [List.lookup_cons]
    by_cases hk : k = k'
    · subst hk
      rw [beq_self_eq_true, Option.some.injEq]
      constructor
      · rintro rfl
        exact List.mem_cons_self ..
      · exact fun hmem => h (List.mem_cons_self ..) hmem
    · rw [beq_false_of_ne hk, hl, List.mem_cons, Prod.mk.injEq]
      exact (or_iff_right fun heq => hk heq.1).symm

/-- Lists with the same members are sorted alike, if only equal members compare equal. -/
theorem mergeSort_eq_of_perm {α : Type} (cmp : α → α → Ordering) [Std.TransCmp cmp]
    [Std.LawfulEqCmp cmp] {l l' : List α} (h : l.Perm l') :
    l.mergeSort (fun a b => (cmp a b).isLE) = l'.mergeSort fun a b => (cmp a b).isLE := by
  have htrans : ∀ a b c, (cmp a b).isLE = true → (cmp b c).isLE = true → (cmp a c).isLE = true :=
    fun _ _ _ => Std.TransCmp.isLE_trans
  have htotal : ∀ a b, ((cmp a b).isLE || (cmp b a).isLE) = true := fun a b => by
    have hswap : cmp b a = (cmp a b).swap := Std.OrientedCmp.eq_swap
    rw [hswap]
    cases cmp a b <;> rfl
  refine List.Perm.eq_of_pairwise (fun a b _ _ hab hba => ?_)
    (List.pairwise_mergeSort htrans htotal l)
    (List.pairwise_mergeSort htrans htotal l')
    ((List.mergeSort_perm l _).trans (h.trans (List.mergeSort_perm l' _).symm))
  exact Std.LawfulEqCmp.eq_of_compare (Std.OrientedCmp.isLE_antisymm hab hba)

theorem nodup_eraseDups {α : Type} [BEq α] [LawfulBEq α] (l : List α) : l.eraseDups.Nodup := by
  induction hn : l.length using Nat.strongRecOn generalizing l with
  | ind n ih =>
    subst hn
    cases l with
    | nil => exact List.nodup_nil
    | cons a l =>
      have hfilter := List.length_filter_le (fun b => !b == a) l
      rw [List.eraseDups_cons]
      refine List.nodup_cons.mpr ⟨fun hmem => ?_, ih _ (Nat.lt_succ_of_le hfilter) _ rfl⟩
      simpa using (List.mem_filter.mp (List.mem_eraseDups.mp hmem)).2

end GraphGrammar
