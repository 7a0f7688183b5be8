import GraphGrammar.Proofs.Matching.Halting

/-!
# The hits of a search as a list

What a search reports, and in which order, does not depend on the listener. It is the list of all
completions of the empty placement along the plan. The search goes through this list until it is
halted.

## Main definitions

* `GraphGrammar.completions` — the completions of a placement, in the order of the search.
* `GraphGrammar.Pattern.occurrences` — the matches in the order in which they are reported.

## Main results

* `GraphGrammar.searchBelow_eq` — the search below a placement goes through its completions.
* `GraphGrammar.searchPattern_eq` — the search for a pattern goes through its occurrences.
-/

namespace GraphGrammar

variable {σ : Type} (p : Pattern) (order : Option SymmetryOrder) (t : GraphView)

/-- The candidates for the next node that are admitted. -/
def PlannedNode.choices (step : PlannedNode) (m : Placement) : List Nat :=
  (step.candidates t m).filter fun c =>
    step.suits p t m c && step.admitted order t ((step.node, c) :: m)

/-- The completions of a placement along the rest of a plan, in the order in which the search meets
them. -/
def completions : List PlannedNode → Placement → List Placement
  | [], m => [m]
  | step :: rest, m =>
    (step.choices p order t m).flatMap fun c => completions rest ((step.node, c) :: m)

/-- The search below a placement reports its completions. -/
theorem searchBelow_eq (report : Placement → σ → σ × Decision) (plan : List PlannedNode)
    (m : Placement) (s : σ) :
    searchBelow p order t report plan m s =
      untilHalted report (completions p order t plan m) s := by
  induction plan generalizing m s with
  | nil =>
    rw [searchBelow, completions, untilHalted]
    rcases report m s with ⟨s, _ | _ | _⟩ <;> rfl
  | cons step rest ih =>
    rw [searchBelow, untilHalted_filter, completions, ← untilHalted_flatMap]
    exact untilHalted_congr (fun c _ s => ih _ s) s

namespace Pattern

/-- The matches of a pattern as a search reports them. -/
def occurrences : List (List Nat) :=
  if t.nodeCount < p.graph.nodeCount || t.edgeCount < p.graph.edgeCount then []
  else
    match p.plan? with
    | none => []
    | some plan =>
      (completions p (order.filter fun o => o.size == p.graph.nodeCount) t plan []).map fun m =>
        (m.occurrence p.graph.nodeCount).images

/-- The matches as hits for the pattern with number `id`. -/
def hits (id : Nat) : List Hit := (p.occurrences order t).map fun m => ⟨id, ⟨m⟩⟩

theorem map_images_hits (id : Nat) :
    (p.hits order t id).map (fun hit => hit.occurrence.images) = p.occurrences order t := by
  rw [hits, List.map_map]
  exact List.map_id _

end Pattern

/-- The search for a pattern goes through its hits, if any hit may still follow. -/
theorem searchPattern_eq (report : Listener σ) (id : Nat) {s : Tally σ} (h : s.budget ≠ 0) :
    searchPattern report t id p order s =
      untilHalted (fun hit s => s.deliver report hit) (p.hits order t id) s := by
  rw [searchPattern, if_neg h, Pattern.hits, Pattern.occurrences]
  split
  · rfl
  · cases p.plan? with
    | none => rfl
    | some plan =>
      dsimp only
      rw [searchBelow_eq]
      simp only [List.map_map, untilHalted_map]
      rfl

theorem searchPattern_fst_eq (report : Listener σ) (id : Nat) (s : Tally σ) :
    (searchPattern report t id p order s).1 =
      (untilHalted (fun hit s => s.deliver report hit) (p.hits order t id) s).1 := by
  by_cases h : s.budget = 0
  · rw [searchPattern, if_pos h]
    cases p.hits order t id with
    | nil => rfl
    | cons hit hits => rw [untilHalted, Tally.deliver, if_pos h]
  · rw [searchPattern_eq p order t report id h]

/-- **A search for one pattern** goes through the first hits up to the cap. -/
theorem searchOne_state_eq_take (maxHits : Nat) (report : Listener σ) (state : σ) :
    (searchOne maxHits report p order t state).state =
      (report.hear ((p.hits order t 0).take maxHits) state).1 := by
  rw [searchOne, searchPattern_fst_eq]
  exact untilHalted_deliver report _ _

/-- A search for one pattern with a cap that is not exceeded. -/
theorem searchOne_state {maxHits : Nat} (h : (p.occurrences order t).length ≤ maxHits)
    (report : Listener σ) (state : σ) :
    (searchOne maxHits report p order t state).state =
      (report.hear (p.hits order t 0) state).1 := by
  have hlength : (p.hits order t 0).length ≤ maxHits := by rwa [Pattern.hits, List.length_map]
  rw [searchOne_state_eq_take, List.take_of_length_le hlength]

/-- A search for one pattern that reports fewer hits than its cap allows. -/
theorem searchOne_state_of_hits_lt {maxHits : Nat} {report : Listener σ} {state : σ}
    (h : (searchOne maxHits report p order t state).hits < maxHits) :
    (searchOne maxHits report p order t state).state =
      (report.hear (p.hits order t 0) state).1 := by
  rw [searchOne, searchPattern_fst_eq] at h ⊢
  have hsum := hits_add_budget_untilHalted_deliver report (p.hits order t 0) ⟨state, maxHits, 0⟩
  exact untilHalted_deliver_of_budget_ne_zero (by dsimp only at hsum; omega)

/-- No search for one pattern reports more hits than there are. -/
theorem hits_searchOne_le (maxHits : Nat) (report : Listener σ) (state : σ) :
    (searchOne maxHits report p order t state).hits ≤ (p.occurrences order t).length := by
  have hle := hits_untilHalted_deliver_le report (p.hits order t 0) ⟨state, maxHits, 0⟩
  rwa [← searchPattern_fst_eq, ← searchOne, Pattern.hits, List.length_map, Nat.zero_add] at hle

end GraphGrammar
