import GraphGrammar.Proofs.Matching.Assignment

/-!
# Giving out places one after the other

Requests are served in turn: each gets the first free item that fits it, and the gap is filled by
the last free item. When literal labels are served before wildcards, nobody is left without an item
unless the items cannot suffice at all. Which labels are given out depends only on the labels of the
requests and of the items, each in their order.

## Main definitions

* `GraphGrammar.swapErase` — a list without one entry, whose place the last entry takes.
* `GraphGrammar.choose` — the items given out.

## Main results

* `GraphGrammar.choose_map` — what is given out depends only on what is compared.
* `GraphGrammar.forall₂_choose`, `GraphGrammar.subperm_choose` — what is given out is right.
* `GraphGrammar.isSome_choose_iff` — when everybody gets an item.
-/

namespace GraphGrammar

variable {α β γ : Type}

/-! ### Taking an entry out -/

/-- The list without its entry `i`, whose place is taken by the last entry. -/
def swapErase (l : List α) (i : Nat) : List α :=
  match l.getLast? with
  | none => l
  | some last => (l.set i last).dropLast

theorem map_swapErase (f : α → β) (l : List α) (i : Nat) :
    (swapErase l i).map f = swapErase (l.map f) i := by
  rw [swapErase, swapErase, List.getLast?_map]
  cases l.getLast? with
  | none => rfl
  | some last => simp [List.map_dropLast, List.map_set]

theorem perm_cons_set {l : List α} {i : Nat} {a : α} (h : l[i]? = some a) (b : α) :
    (a :: l.set i b).Perm (b :: l) := by
  induction l generalizing i with
  | nil => simp at h
  | cons c l ih =>
    cases i with
    | zero =>
      cases h
      exact List.Perm.swap ..
    | succ i =>
      rw [List.set_cons_succ]
      exact ((List.Perm.swap ..).trans ((ih h).cons c)).trans (List.Perm.swap ..)

theorem perm_cons_swapErase {l : List α} {i : Nat} {a : α} (h : l[i]? = some a) :
    (a :: swapErase l i).Perm l := by
  rcases List.eq_nil_or_concat l with rfl | ⟨front, last, rfl⟩
  · simp at h
  · rw [List.concat_eq_append] at h ⊢
    rw [swapErase, List.getLast?_concat]
    dsimp only
    rcases Nat.lt_or_ge i front.length with hi | hi
    · rw [List.set_append_left _ _ hi, List.dropLast_concat]
      rw [List.getElem?_append_left hi] at h
      exact (perm_cons_set h last).trans (List.perm_append_singleton last front).symm
    · have hlen : i < front.length + 1 := by
        simpa using (List.getElem?_eq_some_iff.mp h).1
      obtain rfl : i = front.length := by omega
      have : a = last := by simpa using h.symm
      subst this
      simp [List.set_append_right, (List.perm_append_singleton a front).symm]

/-! ### Serving requests -/

theorem findIdx?_congr {p q : α → Bool} {l : List α} (h : ∀ a ∈ l, p a = q a) :
    l.findIdx? p = l.findIdx? q := by
  induction l with
  | nil => rfl
  | cons a l ih =>
    rw [List.findIdx?_cons, List.findIdx?_cons, h a (List.mem_cons_self ..),
      ih fun b hb => h b (List.mem_cons_of_mem _ hb)]

/-- The items that are given to the requests of a list, one after the other. -/
def choose (fits : β → α → Bool) : List β → List α → Option (List α)
  | [], _ => some []
  | b :: requests, free =>
    (free.findIdx? (fits b)).bind fun i => (free[i]?).bind fun a =>
      (choose fits requests (swapErase free i)).map (a :: ·)

/-- What is given out depends only on what is compared. -/
theorem choose_map (fits : β → γ → Bool) (f : α → γ) (requests : List β) (free : List α) :
    choose fits requests (free.map f) =
      (choose (fun b a => fits b (f a)) requests free).map (List.map f) := by
  induction requests generalizing free with
  | nil => rfl
  | cons b requests ih =>
    rw [choose, choose, List.findIdx?_map, Option.map_bind]
    refine congrArg _ (funext fun i => ?_)
    rw [List.getElem?_map, Function.comp_apply, Option.map_bind, Option.bind_map]
    refine congrArg _ (funext fun a => ?_)
    rw [Function.comp_apply, Function.comp_apply, ← map_swapErase, ih, Option.map_map,
      Option.map_map]
    rfl

theorem choose_congr {fits fits' : β → α → Bool} {free : List α}
    (h : ∀ b, ∀ a ∈ free, fits b a = fits' b a) (requests : List β) :
    choose fits requests free = choose fits' requests free := by
  induction requests generalizing free with
  | nil => rfl
  | cons b requests ih =>
    rw [choose, choose, findIdx?_congr (h b)]
    refine congrArg _ (funext fun i => Option.bind_congr fun a ha => ?_)
    rw [ih fun b' a' ha' => h b' a' ((perm_cons_swapErase ha).mem_iff.mp
      (List.mem_cons_of_mem _ ha'))]

theorem choose_map_requests (fits : γ → α → Bool) (f : β → γ) (requests : List β)
    (free : List α) :
    choose fits (requests.map f) free = choose (fun b => fits (f b)) requests free := by
  induction requests generalizing free with
  | nil => rfl
  | cons b requests ih => simp only [List.map_cons, choose, ih]

theorem choose_cons_eq_some {fits : β → α → Bool} {b : β} {requests : List β} {free : List α}
    {chosen : List α} (h : choose fits (b :: requests) free = some chosen) :
    ∃ i a others, free.findIdx? (fits b) = some i ∧ free[i]? = some a ∧ fits b a = true ∧
      choose fits requests (swapErase free i) = some others ∧ chosen = a :: others := by
  rw [choose] at h
  obtain ⟨i, hi, h⟩ := Option.bind_eq_some_iff.mp h
  obtain ⟨a, ha, h⟩ := Option.bind_eq_some_iff.mp h
  obtain ⟨others, hothers, rfl⟩ := Option.map_eq_some_iff.mp h
  have hfits := List.of_findIdx?_eq_some hi
  rw [ha] at hfits
  exact ⟨i, a, others, hi, ha, hfits, hothers, rfl⟩

/-- Every request gets an item that fits it. -/
theorem forall₂_choose {fits : β → α → Bool} {requests : List β} {free chosen : List α}
    (h : choose fits requests free = some chosen) :
    List.Forall₂ (fun b a => fits b a = true) requests chosen := by
  induction requests generalizing free chosen with
  | nil =>
    cases h
    exact List.Forall₂.nil
  | cons b requests ih =>
    obtain ⟨i, a, others, -, -, hfits, hothers, rfl⟩ := choose_cons_eq_some h
    exact List.Forall₂.cons hfits (ih hothers)

/-- No item is given out more often than it is there. -/
theorem subperm_choose {fits : β → α → Bool} {requests : List β} {free chosen : List α}
    (h : choose fits requests free = some chosen) : chosen.Subperm free := by
  induction requests generalizing free chosen with
  | nil =>
    cases h
    exact List.nil_subperm
  | cons b requests ih =>
    obtain ⟨i, a, others, -, ha, -, hothers, rfl⟩ := choose_cons_eq_some h
    exact ((List.subperm_cons a).mpr (ih hothers)).trans (perm_cons_swapErase ha).subperm

/-! ### Labels -/

variable {wildcard : Option String} {required available : List String}

theorem isSome_choose_of_labelsFit
    (hsorted : required.Pairwise fun l l' => wildcard = some l → wildcard = some l')
    (h : labelsFit wildcard required available = true) :
    (choose (labelFits wildcard) required available).isSome = true := by
  induction required generalizing available with
  | nil => rfl
  | cons l required ih =>
    obtain ⟨hlen, hcount⟩ := labelsFit_iff.mp h
    obtain ⟨hl, hsorted⟩ := List.pairwise_cons.mp hsorted
    rw [List.length_cons] at hlen
    -- Some item fits: a copy of a literal label, and any item for a wildcard.
    obtain ⟨found, hfound, hfits⟩ : ∃ found ∈ available, labelFits wildcard l found = true := by
      by_cases hw : wildcard = some l
      · obtain ⟨found, hfound⟩ := List.exists_mem_of_length_pos (l := available) (by omega)
        exact ⟨found, hfound, labelFits_of_wildcard hw found⟩
      · have hle := (hcount l (List.mem_cons_self ..)).resolve_left hw
        rw [List.count_cons_self] at hle
        exact ⟨l, List.count_pos_iff.mp (by omega), labelFits_self wildcard l⟩
    have hlt := List.findIdx_lt_length_of_exists ⟨found, hfound, hfits⟩
    have hidx := List.findIdx?_eq_some_of_exists ⟨found, hfound, hfits⟩
    let i := available.findIdx (labelFits wildcard l)
    have hget : available[i]? = some available[i] := List.getElem?_eq_getElem hlt
    have hperm := perm_cons_swapErase hget
    have hrest : labelsFit wildcard required (swapErase available i) = true := by
      have hlen' := hperm.length_eq
      rw [List.length_cons] at hlen'
      refine labelsFit_iff.mpr ⟨by omega, fun l' hl' => or_iff_not_imp_left.mpr fun hw' => ?_⟩
      -- A literal label comes after literal labels only, which take their own copies.
      have hw : wildcard ≠ some l := fun hw => hw' (hl l' hl' hw)
      have hown : l = available[i] := eq_of_labelFits (List.findIdx_getElem (w := hlt)) hw
      have hle := (hcount l' (List.mem_cons_of_mem _ hl')).resolve_left hw'
      have hcount' := hperm.count_eq l'
      rw [List.count_cons, ← hown] at hcount'
      rw [List.count_cons] at hle
      omega
    have := ih hsorted hrest
    rw [choose, hidx, Option.bind_some, hget, Option.bind_some, Option.isSome_map]
    exact this

/-- **Serving literal labels before wildcards** leaves nobody without an item unless the items
cannot suffice. -/
theorem isSome_choose_iff
    (hsorted : required.Pairwise fun l l' => wildcard = some l → wildcard = some l') :
    (choose (labelFits wildcard) required available).isSome = true ↔
      labelsFit wildcard required available = true := by
  refine ⟨fun h => ?_, isSome_choose_of_labelsFit hsorted⟩
  obtain ⟨chosen, hchosen⟩ := Option.isSome_iff_exists.mp h
  exact labelsFit_of_subperm (forall₂_choose hchosen) (subperm_choose hchosen)

end GraphGrammar
