import GraphGrammar.Search.Backtracking

/-!
# Loops that a decision ends

A search is a loop over candidates inside a loop over candidates, and every hit may end it. Such
loops are brought to one loop over the list of all hits. A cap on the number of hits then only cuts
this list off.

## Main results

* `GraphGrammar.untilHalted_flatMap` — a loop of loops is one loop.
* `GraphGrammar.untilHalted_eq_foldl` — a loop that is never halted.
* `GraphGrammar.untilHalted_deliver` — under a cap, the listener hears of the first hits until it
  halts.
-/

namespace GraphGrammar

variable {α β σ : Type}

/-! ### One step -/

@[simp]
theorem untilHalted_nil (f : α → σ → σ × Decision) (s : σ) : untilHalted f [] s = (s, .proceed) :=
  rfl

/-- A loop goes on after its first step, or is halted. -/
theorem untilHalted_step (f : α → σ → σ × Decision) (a : α) (l : List α) (s : σ) :
    untilHalted f (a :: l) s =
      match f a s with
      | (s, .proceed) => untilHalted f l s
      | halted => halted :=
  rfl

/-- A step after which the loop goes on. -/
theorem untilHalted_cons {f : α → σ → σ × Decision} {a : α} {l : List α} {s s' : σ}
    (h : f a s = (s', .proceed)) : untilHalted f (a :: l) s = untilHalted f l s' := by
  rw [untilHalted_step, h]

/-! ### Loops of loops -/

theorem untilHalted_append (f : α → σ → σ × Decision) (l l' : List α) (s : σ) :
    untilHalted f (l ++ l') s =
      match untilHalted f l s with
      | (s, .proceed) => untilHalted f l' s
      | halted => halted := by
  induction l generalizing s with
  | nil => rfl
  | cons a l ih =>
    simp only [List.cons_append, untilHalted_step]
    rcases f a s with ⟨s, _ | _ | _⟩
    · exact ih s
    · rfl
    · rfl

theorem untilHalted_flatMap (f : β → σ → σ × Decision) (g : α → List β) (l : List α) (s : σ) :
    untilHalted (fun a => untilHalted f (g a)) l s = untilHalted f (l.flatMap g) s := by
  induction l generalizing s with
  | nil => rfl
  | cons a l ih =>
    rw [List.flatMap_cons, untilHalted_append, untilHalted_step]
    rcases untilHalted f (g a) s with ⟨s, _ | _ | _⟩
    · exact ih s
    · rfl
    · rfl

theorem untilHalted_map (f : β → σ → σ × Decision) (g : α → β) (l : List α) (s : σ) :
    untilHalted f (l.map g) s = untilHalted (fun a => f (g a)) l s := by
  induction l generalizing s with
  | nil => rfl
  | cons a l ih =>
    simp only [List.map_cons, untilHalted_step]
    rcases f (g a) s with ⟨s, _ | _ | _⟩
    · exact ih s
    · rfl
    · rfl

/-- Members for which nothing is done are left out. -/
theorem untilHalted_filter (f : α → σ → σ × Decision) (c : α → Bool) (l : List α) (s : σ) :
    untilHalted (fun a s => if c a then f a s else (s, .proceed)) l s =
      untilHalted f (l.filter c) s := by
  induction l generalizing s with
  | nil => rfl
  | cons a l ih =>
    rw [List.filter_cons, untilHalted_step]
    by_cases ha : c a = true
    · simp only [ha, if_true, untilHalted_step]
      rcases f a s with ⟨s, _ | _ | _⟩
      · exact ih s
      · rfl
      · rfl
    · simp only [ha]
      exact ih s

theorem untilHalted_congr {f g : α → σ → σ × Decision} {l : List α}
    (h : ∀ a ∈ l, ∀ s, f a s = g a s) (s : σ) : untilHalted f l s = untilHalted g l s := by
  induction l generalizing s with
  | nil => rfl
  | cons a l ih =>
    rw [untilHalted_step, untilHalted_step, h a (List.mem_cons_self ..)]
    rcases g a s with ⟨s, _ | _ | _⟩
    · exact ih (fun b hb => h b (List.mem_cons_of_mem _ hb)) s
    · rfl
    · rfl

/-- What every step preserves, the loop preserves. -/
theorem untilHalted_induction {f : α → σ → σ × Decision} {l : List α}
    (inv : σ → Prop) (h : ∀ a ∈ l, ∀ s, inv s → inv (f a s).1) {s : σ} (hs : inv s) :
    inv (untilHalted f l s).1 := by
  induction l generalizing s with
  | nil => exact hs
  | cons a l ih =>
    have hstep := h a (List.mem_cons_self ..) s hs
    rw [untilHalted_step]
    generalize f a s = next at hstep ⊢
    rcases next with ⟨s, _ | _ | _⟩
    · exact ih (fun b hb => h b (List.mem_cons_of_mem _ hb)) hstep
    · exact hstep
    · exact hstep

/-- If every step adds to `φ` at most what it adds to `ψ`, and one more only for some members, then
the loop adds at most the number of these members more. -/
theorem untilHalted_countP_le {f : α → σ → σ × Decision} (φ ψ : σ → Nat) (c : α → Bool)
    (h : ∀ a s, φ (f a s).1 + ψ s ≤ φ s + ψ (f a s).1 + if c a then 1 else 0) (l : List α) (s : σ) :
    φ (untilHalted f l s).1 + ψ s ≤ φ s + ψ (untilHalted f l s).1 + l.countP c := by
  induction l generalizing s with
  | nil => exact Nat.le_refl _
  | cons a l ih =>
    have hstep := h a s
    rw [untilHalted_step, List.countP_cons]
    generalize f a s = next at hstep ⊢
    rcases next with ⟨s', _ | _ | _⟩
    · have hrest := ih s'
      dsimp only at hstep ⊢
      omega
    · dsimp only at hstep ⊢
      omega
    · dsimp only at hstep ⊢
      omega

/-- A loop on states that are given by those of another loop. -/
theorem untilHalted_map_state {τ : Type} {f : α → σ → σ × Decision} {g : α → τ → τ × Decision}
    {φ : σ → τ} (hstep : ∀ a s, g a (φ s) = (φ (f a s).1, (f a s).2)) (l : List α) (s : σ) :
    untilHalted g l (φ s) = (φ (untilHalted f l s).1, (untilHalted f l s).2) := by
  induction l generalizing s with
  | nil => rfl
  | cons a l ih =>
    rw [untilHalted_step, untilHalted_step, hstep]
    rcases f a s with ⟨s, _ | _ | _⟩
    · exact ih s
    · rfl
    · rfl

/-! ### Loops that are not halted -/

theorem untilHalted_eq_foldl {f : α → σ → σ × Decision} {l : List α}
    (h : ∀ a ∈ l, ∀ s, (f a s).2 = .proceed) (s : σ) :
    untilHalted f l s = (l.foldl (fun s a => (f a s).1) s, .proceed) := by
  induction l generalizing s with
  | nil => rfl
  | cons a l ih =>
    have ha := h a (List.mem_cons_self ..) s
    rw [untilHalted_step, List.foldl_cons]
    generalize f a s = next at ha ⊢
    obtain ⟨s, d⟩ := next
    cases ha
    exact ih (fun b hb => h b (List.mem_cons_of_mem _ hb)) s

/-! ### Caps on the number of hits -/

/-- Without a cap, the listener hears of the hits until it halts. -/
def Listener.hear (report : Listener σ) (hits : List Hit) (s : σ) : σ × Decision :=
  untilHalted (fun hit s => report s hit) hits s

/-- The listener that keeps the hits keeps all of them. -/
theorem Listener.hear_storeHits (hits found : List Hit) :
    Listener.hear storeHits hits found = (found ++ hits, .proceed) := by
  induction hits generalizing found with
  | nil => rw [List.append_nil]; rfl
  | cons hit hits ih =>
    refine (ih (found ++ [hit])).trans ?_
    rw [List.append_assoc, List.singleton_append]

/-- Under a cap, the listener hears of the first hits up to the cap, until it halts. The cap itself
only ends the search after the last of them. -/
theorem untilHalted_deliver (report : Listener σ) (hits : List Hit) (s : Tally σ) :
    (untilHalted (fun hit s => s.deliver report hit) hits s).1.state =
      (report.hear (hits.take s.budget) s.state).1 := by
  induction hits generalizing s with
  | nil => rw [List.take_nil]; rfl
  | cons hit hits ih =>
    obtain ⟨state, budget, count⟩ := s
    cases budget with
    | zero => rfl
    | succ budget =>
      simp only [untilHalted_step, Tally.deliver, Listener.hear, Nat.succ_ne_zero, if_false,
        Nat.add_sub_cancel, List.take_succ_cons]
      rcases report state hit with ⟨state, decision⟩
      dsimp only
      by_cases hlast : budget = 0
      · subst hlast
        cases decision <;> rfl
      · simp only [if_neg hlast]
        cases decision
        · exact ih ⟨state, budget, count + 1⟩
        · rfl
        · rfl

/-- The hits that were reported and those that may still follow are as many as the cap allows. -/
theorem hits_add_budget_untilHalted_deliver (report : Listener σ) (hits : List Hit) (s : Tally σ) :
    (untilHalted (fun hit s => s.deliver report hit) hits s).1.hits +
      (untilHalted (fun hit s => s.deliver report hit) hits s).1.budget = s.hits + s.budget := by
  refine untilHalted_induction (fun s' : Tally σ => s'.hits + s'.budget = s.hits + s.budget)
    (fun hit _ s' hs' => ?_) rfl
  rw [Tally.deliver]
  split
  · exact hs'
  · next hbudget =>
    dsimp only
    omega

/-- Not more hits are reported than there are. -/
theorem hits_untilHalted_deliver_le (report : Listener σ) (hits : List Hit) (s : Tally σ) :
    (untilHalted (fun hit s => s.deliver report hit) hits s).1.hits ≤ s.hits + hits.length := by
  have hle := untilHalted_countP_le (f := fun hit s => s.deliver report hit) Tally.hits (fun _ => 0)
    (fun _ => true) (fun hit s => by
      rw [Tally.deliver]
      split
      · exact Nat.le_succ _
      · exact Nat.le_refl _) hits s
  rwa [List.countP_true] at hle

/-- A cap that is not reached does not matter. -/
theorem untilHalted_deliver_of_budget_ne_zero {report : Listener σ} {hits : List Hit} {s : Tally σ}
    (h : (untilHalted (fun hit s => s.deliver report hit) hits s).1.budget ≠ 0) :
    (untilHalted (fun hit s => s.deliver report hit) hits s).1.state =
      (report.hear hits s.state).1 := by
  induction hits generalizing s with
  | nil => rfl
  | cons hit hits ih =>
    obtain ⟨state, budget, count⟩ := s
    cases budget with
    | zero => exact absurd rfl h
    | succ budget =>
      simp only [untilHalted_step, Tally.deliver, Listener.hear, Nat.succ_ne_zero, if_false,
        Nat.add_sub_cancel] at h ⊢
      generalize report state hit = next at h ⊢
      obtain ⟨state, decision⟩ := next
      dsimp only at h ⊢
      by_cases hlast : budget = 0
      · rw [if_pos hlast] at h
        exact absurd hlast h
      · simp only [if_neg hlast] at h ⊢
        cases decision
        · exact ih h
        · rfl
        · rfl

/-- A listener that never halts hears of the first hits up to the cap. -/
theorem untilHalted_deliver_of_proceed {report : Listener σ} {hits : List Hit}
    (hproceed : ∀ hit ∈ hits, ∀ s, (report s hit).2 = .proceed) (s : Tally σ) :
    (untilHalted (fun hit s => s.deliver report hit) hits s).1 =
      ⟨(hits.take s.budget).foldl (fun s hit => (report s hit).1) s.state,
        s.budget - hits.length, s.hits + (hits.take s.budget).length⟩ := by
  induction hits generalizing s with
  | nil => simp
  | cons hit hits ih =>
    obtain ⟨state, budget, count⟩ := s
    cases budget with
    | zero => simp [untilHalted_step, Tally.deliver]
    | succ budget =>
      have hgo := hproceed hit (List.mem_cons_self ..) state
      simp only [untilHalted_step, Tally.deliver, Nat.succ_ne_zero, if_false, Nat.add_sub_cancel,
        List.take_succ_cons, List.foldl_cons, List.length_cons]
      generalize report state hit = next at hgo ⊢
      obtain ⟨state, decision⟩ := next
      cases hgo
      dsimp only
      by_cases hlast : budget = 0
      · simp [hlast]
      · rw [if_neg hlast]
        refine (ih (fun hit hmem => hproceed hit (List.mem_cons_of_mem _ hmem)) _).trans ?_
        simp only [Tally.mk.injEq, true_and]
        omega

/-- Only the cap ends the search of a listener that never halts. -/
theorem budget_eq_zero_of_proceed {report : Listener σ} {hits : List Hit}
    (hproceed : ∀ hit ∈ hits, ∀ s, (report s hit).2 = .proceed) {s : Tally σ}
    (h : (untilHalted (fun hit s => s.deliver report hit) hits s).2 ≠ .proceed) :
    (untilHalted (fun hit s => s.deliver report hit) hits s).1.budget = 0 := by
  induction hits generalizing s with
  | nil => exact absurd rfl h
  | cons hit hits ih =>
    obtain ⟨state, budget, count⟩ := s
    have hgo := hproceed hit (List.mem_cons_self ..) state
    simp only [untilHalted_step, Tally.deliver] at h ⊢
    by_cases hnone : budget = 0
    · simp only [if_pos hnone]
      exact hnone
    · simp only [if_neg hnone] at h ⊢
      generalize report state hit = next at hgo h ⊢
      obtain ⟨state, decision⟩ := next
      cases hgo
      dsimp only at h ⊢
      by_cases hlast : budget - 1 = 0
      · simp only [if_pos hlast]
        exact hlast
      · rw [if_neg hlast] at h ⊢
        exact ih (fun hit hmem => hproceed hit (List.mem_cons_of_mem _ hmem)) h

end GraphGrammar
