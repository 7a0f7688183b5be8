/-!
# Calls on a state

A call on a state gives an answer or is refused, and leaves a state in both cases. What was changed
before a call is refused stays changed. A loop of calls makes the calls of its steps one after the
other.

## Main results

* `GraphGrammar.run_bind_of_ok`, `GraphGrammar.run_bind_of_error` — what follows a call.
* `GraphGrammar.run_tryCatch_of_ok` — a call with another one in its place, should it be refused.
* `GraphGrammar.forM_flatMap`, `GraphGrammar.forM_filterMap` — loops in loops, and loops that pass
  over some of their steps.
-/

namespace GraphGrammar

variable {σ ε α β : Type}

section

variable {call : ExceptT ε (StateM σ) α} {s s' : σ}

theorem run_bind_of_ok {a : α} (h : call.run.run s = (.ok a, s'))
    (next : α → ExceptT ε (StateM σ) β) : (call >>= next).run.run s = (next a).run.run s' := by
  rw [ExceptT.run_bind, StateT.run_bind, show call.run.run s = _ from h]
  rfl

/-- After a call that is refused nothing follows. -/
theorem run_bind_of_error {fault : ε} (h : call.run.run s = (.error fault, s'))
    (next : α → ExceptT ε (StateM σ) β) :
    (call >>= next).run.run s = (.error fault, s') := by
  rw [ExceptT.run_bind, StateT.run_bind, show call.run.run s = _ from h]
  rfl

/-- A call that is not refused needs no other one in its place. -/
theorem run_tryCatch_of_ok {a : α} (h : call.run.run s = (.ok a, s'))
    (handle : ε → ExceptT ε (StateM σ) α) :
    (tryCatch call handle).run.run s = (.ok a, s') := by
  rw [ExceptT.run_tryCatch, StateT.run_bind, show call.run.run s = _ from h]
  rfl

end

section

variable {m : Type → Type} [Monad m] [LawfulMonad m]

/-- Loops in a loop are one loop. -/
theorem forM_flatMap (l : List α) (f : α → List β) (step : β → m PUnit) :
    forM (l.flatMap f) step = forM l fun a => forM (f a) step := by
  induction l with
  | nil => rfl
  | cons a l ih => rw [List.flatMap_cons, List.forM_append, List.forM_cons, ih]

/-- What is passed over is left out. -/
theorem forM_filterMap (l : List α) (f : α → Option β) (step : β → m PUnit) :
    forM (l.filterMap f) step =
      forM l fun a => match f a with
        | some b => step b
        | none => pure ⟨⟩ := by
  induction l with
  | nil => rfl
  | cons a l ih =>
    rw [List.filterMap_cons, List.forM_cons]
    cases f a with
    | none =>
      dsimp only
      rw [pure_bind, ih]
    | some b => rw [List.forM_cons, ih]

end

end GraphGrammar
