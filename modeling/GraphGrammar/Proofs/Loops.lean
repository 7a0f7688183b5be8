import Mathlib.Data.List.Nodup

/-!
# Loops that may fail, and repetitions

## Main results

* `GraphGrammar.mapM_eq_pure`, `GraphGrammar.mapM_eq_ok` — a loop of which no step fails.
* `GraphGrammar.exists_of_mapM_eq_ok` — what a loop that did not fail tells of its steps.
* `GraphGrammar.mem_eraseReps`, `GraphGrammar.nodup_eraseReps` — a sorted list without
  repetitions.
-/

namespace GraphGrammar

variable {α β ε : Type}

/-! ### Loops that do not fail -/

theorem bind_eq_ok_iff {x : Except ε α} {f : α → Except ε β} {b : β} :
    x >>= f = .ok b ↔ ∃ a, x = .ok a ∧ f a = .ok b := by
  cases x with
  | error fault =>
    constructor
    · intro h
      cases h
    · rintro ⟨_, h, -⟩
      cases h
  | ok a =>
    constructor
    · exact fun h => ⟨a, rfl, h⟩
    · rintro ⟨_, h, h'⟩
      cases h
      exact h'

theorem mapM_eq_pure {m : Type → Type} [Monad m] [LawfulMonad m] {f : α → m β} {g : α → β}
    {l : List α} (h : ∀ a ∈ l, f a = pure (g a)) : l.mapM f = pure (l.map g) := by
  induction l with
  | nil => rfl
  | cons a l ih =>
    rw [List.mapM_cons, h a (List.mem_cons_self ..),
      ih fun b hb => h b (List.mem_cons_of_mem _ hb), pure_bind, pure_bind, List.map_cons]

theorem mapM_eq_ok {f : α → Except ε β} {g : α → β} {l : List α}
    (h : ∀ a ∈ l, f a = .ok (g a)) : l.mapM f = .ok (l.map g) :=
  mapM_eq_pure h

theorem exists_of_mapM_eq_ok {f : α → Except ε β} {l : List α} {l' : List β}
    (h : l.mapM f = .ok l') : ∀ a ∈ l, ∃ b, f a = .ok b := by
  induction l generalizing l' with
  | nil => exact fun a ha => absurd ha List.not_mem_nil
  | cons a l ih =>
    rw [List.mapM_cons] at h
    obtain ⟨b, hb, h⟩ := bind_eq_ok_iff.mp h
    obtain ⟨rest, hrest, -⟩ := bind_eq_ok_iff.mp h
    exact List.forall_mem_cons.mpr ⟨⟨b, hb⟩, ih hrest⟩

/-! ### Lists without repetitions -/

section

variable [BEq α] [LawfulBEq α] {r : α → α → Prop}

/-- The list that begins with `a`, without the entries that repeat the one before. -/
def withoutReps (a : α) : List α → List α
  | [] => [a]
  | b :: l => if a == b then withoutReps a l else a :: withoutReps b l

omit [LawfulBEq α] in
theorem eraseRepsBy_loop_eq (a : α) (l acc : List α) :
    List.eraseRepsBy.loop (· == ·) a l acc = acc.reverse ++ withoutReps a l := by
  induction l generalizing a acc with
  | nil => rw [List.eraseRepsBy.loop, withoutReps, List.reverse_cons]
  | cons b l ih =>
    rw [List.eraseRepsBy.loop, withoutReps]
    cases a == b
    · simp [ih]
    · simp [ih]

omit [LawfulBEq α] in
theorem eraseReps_cons (a : α) (l : List α) : (a :: l).eraseReps = withoutReps a l := by
  rw [List.eraseReps, List.eraseRepsBy, eraseRepsBy_loop_eq]
  rfl

theorem mem_withoutReps {a x : α} {l : List α} : x ∈ withoutReps a l ↔ x ∈ a :: l := by
  induction l generalizing a with
  | nil => rw [withoutReps]
  | cons b l ih =>
    rw [withoutReps]
    split
    · next hab =>
      rw [ih, ← eq_of_beq hab]
      simp
    · rw [List.mem_cons, ih]
      simp

theorem mem_eraseReps {x : α} {l : List α} : x ∈ l.eraseReps ↔ x ∈ l := by
  cases l with
  | nil => rfl
  | cons a l => rw [eraseReps_cons, mem_withoutReps]

omit [LawfulBEq α] in
theorem withoutReps_sublist (a : α) (l : List α) : (withoutReps a l).Sublist (a :: l) := by
  induction l generalizing a with
  | nil => exact .refl _
  | cons b l ih =>
    rw [withoutReps]
    split
    · exact (ih a).trans (.cons_cons a (.cons b (.refl l)))
    · exact .cons_cons a (ih b)

omit [LawfulBEq α] in
theorem eraseReps_sublist (l : List α) : l.eraseReps.Sublist l := by
  cases l with
  | nil => exact .refl _
  | cons a l =>
    rw [eraseReps_cons]
    exact withoutReps_sublist a l

theorem nodup_withoutReps (hanti : ∀ a b, r a b → r b a → a = b) {a : α} {l : List α}
    (h : (a :: l).Pairwise r) : (withoutReps a l).Nodup := by
  induction l generalizing a with
  | nil =>
    rw [withoutReps]
    exact List.nodup_singleton a
  | cons b l ih =>
    obtain ⟨ha, hbl⟩ := List.pairwise_cons.mp h
    rw [withoutReps]
    split
    · exact ih (List.pairwise_cons.mpr
        ⟨fun x hx => ha x (List.mem_cons_of_mem _ hx), (List.pairwise_cons.mp hbl).2⟩)
    · next hab =>
      refine List.nodup_cons.mpr ⟨fun hmem => ?_, ih hbl⟩
      have hab' : a ≠ b := fun heq => hab (beq_iff_eq.mpr heq)
      rcases List.mem_cons.mp (mem_withoutReps.mp hmem) with heq | hmem
      · exact hab' heq
      · exact hab' (hanti a b (ha b (List.mem_cons_self ..))
          ((List.pairwise_cons.mp hbl).1 a hmem))

/-- Repetitions in a sorted list stand next to each other. -/
theorem nodup_eraseReps (hanti : ∀ a b, r a b → r b a → a = b) {l : List α} (h : l.Pairwise r) :
    l.eraseReps.Nodup := by
  cases l with
  | nil => exact List.nodup_nil
  | cons a l =>
    rw [eraseReps_cons]
    exact nodup_withoutReps hanti h

end

end GraphGrammar
