import GraphGrammar.Proofs.Matching.Enumeration

/-!
# How a listener controls a search

A listener that is called for a hit decides how the search goes on. What it hears in a search for
several patterns is what it would hear on a walk over the lists of all hits, one list for every
pattern: a decision to go to the next pattern leaves a list, and the walk ends with a decision to
stop or with the last call that the cap allows.

## Main definitions

* `GraphGrammar.Listener.recording` — a listener that also notes its calls.
* `GraphGrammar.Walk`, `GraphGrammar.Walk.through` — a walk over lists of hits, with its calls.

## Main results

* `GraphGrammar.searchFrom_tally` — a search follows the walk.
* `GraphGrammar.searchAll_follows_walk` — the calls of a search for several patterns.
-/

namespace GraphGrammar

variable {σ : Type} {t : GraphView}

/-! ### Walks over lists of hits -/

/-- The listener that also notes the hits for which it is called. -/
def Listener.recording (report : Listener σ) : Listener (σ × List Hit) := fun (state, calls) hit =>
  (((report state hit).1, calls ++ [hit]), (report state hit).2)

/-- How far a walk has come. -/
structure Walk (σ : Type) where
  /-- The state of the listener. -/
  state : σ
  /-- The hits for which the listener was called, in the order of the calls. -/
  calls : List Hit

namespace Walk

/-- Calls the listener for a hit, unless it was called `maxHits` times. -/
def call (report : Listener σ) (maxHits : Nat) (hit : Hit) (w : Walk σ) : Walk σ × Decision :=
  if w.calls.length = maxHits then (w, .stop)
  else (⟨(report w.state hit).1, w.calls ++ [hit]⟩, (report w.state hit).2)

/-- Calls the listener for the hits of each list in turn. A decision to go to the next pattern
leaves the list, and a decision to stop ends the walk. -/
def through (report : Listener σ) (maxHits : Nat) : List (List Hit) → Walk σ → Walk σ
  | [], w => w
  | hits :: rest, w =>
    match untilHalted (call report maxHits) hits w with
    | (w, .stop) => w
    | (w, _) => through report maxHits rest w

/-- The tally of a search that has come as far. -/
def tally (maxHits : Nat) (w : Walk σ) : Tally σ :=
  ⟨w.state, maxHits - w.calls.length, w.calls.length⟩

/-- The walk of the listener that notes its calls. -/
def recorded (w : Walk σ) : Walk (σ × List Hit) := ⟨(w.state, w.calls), w.calls⟩

variable {report : Listener σ} {maxHits : Nat} {w : Walk σ}

theorem call_of_full (h : w.calls.length = maxHits) (hit : Hit) :
    w.call report maxHits hit = (w, .stop) := if_pos h

theorem call_of_not_full (h : w.calls.length ≠ maxHits) (hit : Hit) : w.call report maxHits hit =
    (⟨(report w.state hit).1, w.calls ++ [hit]⟩, (report w.state hit).2) := if_neg h

/-- A list that is not the last one. -/
theorem through_cons_of_eq_stop {hits : List Hit} {w' : Walk σ}
    (h : untilHalted (call report maxHits) hits w = (w', .stop)) (rest : List (List Hit)) :
    through report maxHits (hits :: rest) w = w' := by
  rw [through, h]

theorem through_cons_of_ne_stop {hits : List Hit} {w' : Walk σ} {decision : Decision}
    (h : untilHalted (call report maxHits) hits w = (w', decision)) (hne : decision ≠ .stop)
    (rest : List (List Hit)) :
    through report maxHits (hits :: rest) w = through report maxHits rest w' := by
  rw [through, h]
  cases decision
  · rfl
  · rfl
  · exact absurd rfl hne

/-- What every call preserves, the walk preserves. -/
theorem through_induction {P : Walk σ → Prop} {lists : List (List Hit)}
    (hcall : ∀ hits ∈ lists, ∀ hit ∈ hits, ∀ w, P w → P (w.call report maxHits hit).1) (h : P w) :
    P (w.through report maxHits lists) := by
  induction lists generalizing w with
  | nil => exact h
  | cons hits rest ih =>
    have hlist : P (untilHalted (call report maxHits) hits w).1 :=
      untilHalted_induction P (hcall hits (List.mem_cons_self ..)) h
    rcases hnext : untilHalted (call report maxHits) hits w with ⟨w', decision⟩
    rw [hnext] at hlist
    by_cases hstop : decision = .stop
    · rw [through_cons_of_eq_stop (hstop ▸ hnext)]
      exact hlist
    · rw [through_cons_of_ne_stop hnext hstop]
      exact ih (fun hits' hmem => hcall hits' (List.mem_cons_of_mem _ hmem)) hlist

/-- After the last call there is no further one. -/
theorem through_of_full (h : w.calls.length = maxHits) (lists : List (List Hit)) :
    w.through report maxHits lists = w :=
  through_induction (P := fun w' => w' = w)
    (fun _ _ hit _ w' hw' => by rw [hw', call_of_full h]) rfl

/-- There are no more calls than the cap allows. -/
theorem length_calls_call_le (h : w.calls.length ≤ maxHits) (hit : Hit) :
    (w.call report maxHits hit).1.calls.length ≤ maxHits := by
  by_cases hfull : w.calls.length = maxHits
  · rw [call_of_full hfull]
    exact h
  · rw [call_of_not_full hfull, List.length_append, List.length_singleton]
    omega

theorem length_calls_through_le (h : w.calls.length ≤ maxHits) (lists : List (List Hit)) :
    (w.through report maxHits lists).calls.length ≤ maxHits :=
  through_induction (P := fun w => w.calls.length ≤ maxHits)
    (fun _ _ hit _ _ hw => length_calls_call_le hw hit) h

/-- The calls are for hits of the lists. -/
theorem exists_list_of_mem_calls {lists : List (List Hit)} {state : σ} :
    ∀ hit ∈ (through report maxHits lists ⟨state, []⟩).calls, ∃ hits ∈ lists, hit ∈ hits := by
  refine through_induction (P := fun w => ∀ hit ∈ w.calls, ∃ hits ∈ lists, hit ∈ hits)
    (fun hits hhits hit hmem w hw => ?_) fun hit hmem => absurd hmem List.not_mem_nil
  by_cases hfull : w.calls.length = maxHits
  · rw [call_of_full hfull]
    exact hw
  · rw [call_of_not_full hfull]
    intro hit' hmem'
    rcases List.mem_append.mp hmem' with hmem' | hmem'
    · exact hw hit' hmem'
    · rw [List.mem_singleton.mp hmem']
      exact ⟨hits, hhits, hmem⟩

/-- A listener that notes its calls is called for the same hits. -/
theorem through_recording (lists : List (List Hit)) :
    w.recorded.through report.recording maxHits lists =
      (w.through report maxHits lists).recorded := by
  have hcall : ∀ hit (w : Walk σ), w.recorded.call report.recording maxHits hit =
      ((w.call report maxHits hit).1.recorded, (w.call report maxHits hit).2) := by
    intro hit w
    by_cases hfull : w.calls.length = maxHits
    · rw [call_of_full hfull, call_of_full (w := w.recorded) hfull]
    · rw [call_of_not_full hfull, call_of_not_full (w := w.recorded) hfull]
      rfl
  induction lists generalizing w with
  | nil => rfl
  | cons hits rest ih =>
    have hloop := untilHalted_map_state hcall hits w
    rcases hnext : untilHalted (call report maxHits) hits w with ⟨w', decision⟩
    rw [hnext] at hloop
    by_cases hstop : decision = .stop
    · subst hstop
      rw [through_cons_of_eq_stop hnext, through_cons_of_eq_stop hloop]
    · rw [through_cons_of_ne_stop hnext hstop, through_cons_of_ne_stop hloop hstop]
      exact ih

/-! ### Searches follow walks -/

/-- **A hit that is delivered** is one call of the walk. With the last call the search ends,
whatever the listener says. -/
theorem deliver_tally (h : w.calls.length ≤ maxHits) (hit : Hit) :
    (w.tally maxHits).deliver report hit = ((w.call report maxHits hit).1.tally maxHits,
      if (w.call report maxHits hit).1.calls.length = maxHits then .stop
      else (w.call report maxHits hit).2) := by
  by_cases hfull : w.calls.length = maxHits
  · have hbudget : (w.tally maxHits).budget = 0 := Nat.sub_eq_zero_of_le (Nat.le_of_eq hfull.symm)
    rw [call_of_full hfull, Tally.deliver, if_pos hbudget, if_pos hfull]
  · have hbudget : (w.tally maxHits).budget ≠ 0 :=
      Nat.sub_ne_zero_of_lt (Nat.lt_of_le_of_ne h hfull)
    have hlast : maxHits - (w.calls.length + 1) = 0 ↔ w.calls.length + 1 = maxHits := by omega
    rw [call_of_not_full hfull, Tally.deliver, if_neg hbudget]
    simp only [tally, List.length_append, List.length_singleton, Nat.sub_sub, hlast]

/-- **The search for one pattern** makes the calls of the walk. It ends with the last call that the
cap allows, and the walk when there would be a further one. -/
theorem untilHalted_deliver_tally (h : w.calls.length ≤ maxHits) (hits : List Hit) :
    ∃ decision, untilHalted (fun hit s => s.deliver report hit) hits (w.tally maxHits) =
        ((untilHalted (call report maxHits) hits w).1.tally maxHits, decision) ∧
      (decision = (untilHalted (call report maxHits) hits w).2 ∨ decision = .stop ∧
        (untilHalted (call report maxHits) hits w).1.calls.length = maxHits) := by
  induction hits generalizing w with
  | nil => exact ⟨.proceed, rfl, .inl rfl⟩
  | cons hit hits ih =>
    have hle : (w.call report maxHits hit).1.calls.length ≤ maxHits := length_calls_call_le h hit
    rw [untilHalted, untilHalted, deliver_tally h]
    generalize w.call report maxHits hit = next at hle ⊢
    obtain ⟨w', decision⟩ := next
    by_cases hfull : w'.calls.length = maxHits
    · have hrest : (untilHalted (call report maxHits) hits w').1 = w' :=
        untilHalted_induction (fun w => w = w')
          (fun hit _ w hw => by rw [hw, call_of_full hfull]) rfl
      simp only [if_pos hfull]
      refine ⟨.stop, ?_, .inr ⟨rfl, ?_⟩⟩ <;> cases decision <;> simp [hrest, hfull]
    · simp only [if_neg hfull]
      cases decision
      · exact ih hle
      · exact ⟨_, rfl, .inl rfl⟩
      · exact ⟨_, rfl, .inl rfl⟩

end Walk

/-- The lists of the hits of several patterns, the first with number `id`. -/
def hitLists (t : GraphView) (id : Nat) (patterns : List (Pattern × Option SymmetryOrder)) :
    List (List Hit) :=
  (patterns.zipIdx id).map fun p => p.1.1.hits p.1.2 t p.2

/-- **A search for several patterns** makes the calls of the walk over their hits. -/
theorem searchFrom_tally (report : Listener σ) {maxHits : Nat} {w : Walk σ}
    (h : w.calls.length ≤ maxHits) (id : Nat) (patterns : List (Pattern × Option SymmetryOrder)) :
    searchFrom report t id patterns (w.tally maxHits) =
      (w.through report maxHits (hitLists t id patterns)).tally maxHits := by
  induction patterns generalizing id w with
  | nil => rfl
  | cons pattern rest ih =>
    obtain ⟨p, order⟩ := pattern
    have hlists : hitLists t id ((p, order) :: rest) =
        p.hits order t id :: hitLists t (id + 1) rest := by
      rw [hitLists, List.zipIdx_cons, List.map_cons, hitLists]
    rw [searchFrom, hlists]
    by_cases hfull : w.calls.length = maxHits
    · have hbudget : (w.tally maxHits).budget = 0 :=
        Nat.sub_eq_zero_of_le (Nat.le_of_eq hfull.symm)
      rw [if_pos hbudget, Walk.through_of_full hfull]
    · have hbudget : (w.tally maxHits).budget ≠ 0 :=
        Nat.sub_ne_zero_of_lt (Nat.lt_of_le_of_ne h hfull)
      have hle : (untilHalted (Walk.call report maxHits) (p.hits order t id) w).1.calls.length ≤
          maxHits :=
        untilHalted_induction (fun w : Walk σ => w.calls.length ≤ maxHits)
          (fun hit _ w hw => Walk.length_calls_call_le hw hit) h
      rw [if_neg hbudget, searchPattern_eq p order t report id hbudget]
      obtain ⟨decision, hsearch, hdecision⟩ := Walk.untilHalted_deliver_tally h (p.hits order t id)
      rw [hsearch]
      rcases hnext : untilHalted (Walk.call report maxHits) (p.hits order t id) w with
        ⟨w', decision'⟩
      rw [hnext] at hle hdecision
      by_cases hstop : decision' = .stop
      · obtain rfl : decision = .stop := hdecision.elim (fun heq => heq.trans hstop) And.left
        rw [Walk.through_cons_of_eq_stop (hstop ▸ hnext)]
      · rw [Walk.through_cons_of_ne_stop hnext hstop, ← ih hle]
        rcases hdecision with rfl | ⟨rfl, hlast⟩
        · cases decision
          · rfl
          · rfl
          · exact absurd rfl hstop
        · rw [ih hle, Walk.through_of_full hlast]

/-- Patterns with the orders listed for them. A pattern for which none is listed has no order. -/
def withOrders (patterns : List Pattern) (orders : List (Option SymmetryOrder)) :
    List (Pattern × Option SymmetryOrder) :=
  patterns.zipIdx.map fun p => (p.1, orders.getD p.2 none)

theorem getElem?_withOrders (patterns : List Pattern) (orders : List (Option SymmetryOrder))
    (i : Nat) : (withOrders patterns orders)[i]? =
      (patterns[i]?).map fun p => (p, orders.getD i none) := by
  rw [withOrders, List.getElem?_map, List.getElem?_zipIdx, Option.map_map, Nat.zero_add]
  rfl

theorem getElem?_hitLists (t : GraphView) (id : Nat)
    (patterns : List (Pattern × Option SymmetryOrder)) (i : Nat) :
    (hitLists t id patterns)[i]? =
      (patterns[i]?).map fun p => p.1.hits p.2 t (id + i) := by
  rw [hitLists, List.getElem?_map, List.getElem?_zipIdx, Option.map_map]
  rfl

/-- A listener that always goes on hears of all hits when no cap interrupts it. -/
theorem searchPattern_storeHits (p : Pattern) (order : Option SymmetryOrder) (id : Nat)
    {maxHits : Nat} (h : (p.hits order t id).length ≤ maxHits) :
    (searchPattern storeHits t id p order ⟨[], maxHits, 0⟩).1.state = p.hits order t id := by
  rw [searchPattern_fst_eq, untilHalted_deliver, List.take_of_length_le h, Listener.hear_storeHits,
    List.nil_append]

/-- **How a listener controls a search** for several patterns. Its calls are those of the walk over
the lists of all hits, which a listener that always goes on hears of when no cap interrupts it. The
number of hits that is returned is the number of calls, which the cap bounds, and every hit has the
place of its pattern. -/
theorem searchAll_follows_walk (report : Listener σ) (maxHits : Nat) (patterns : List Pattern)
    (orders : List (Option SymmetryOrder)) (t : GraphView) (state : σ) :
    let lists := hitLists t 0 (withOrders patterns orders)
    let walk := Walk.through report maxHits lists ⟨state, []⟩
    (searchAll maxHits report.recording (withOrders patterns orders) t (state, [])).state =
      (walk.state, walk.calls) ∧
    (searchAll maxHits report (withOrders patterns orders) t state).state = walk.state ∧
    (searchAll maxHits report (withOrders patterns orders) t state).hits = walk.calls.length ∧
    walk.calls.length ≤ maxHits ∧
    (∀ hit ∈ walk.calls, ∃ p, patterns[hit.pattern]? = some p ∧
      hit.occurrence.images ∈ p.occurrences (orders.getD hit.pattern none) t) ∧
    lists.length = patterns.length ∧
    ∀ (i : Nat) (p : Pattern), patterns[i]? = some p → ∃ hits, lists[i]? = some hits ∧
      ∀ cap, hits.length ≤ cap →
        (searchPattern storeHits t i p (orders.getD i none) ⟨[], cap, 0⟩).1.state = hits := by
  intro lists walk
  have hlists : ∀ {i : Nat}, lists[i]? =
      (patterns[i]?).map fun p => p.hits (orders.getD i none) t i := by
    intro i
    rw [getElem?_hitLists, getElem?_withOrders, Option.map_map, Nat.zero_add]
    rfl
  have hsearch : searchAll maxHits report (withOrders patterns orders) t state =
      walk.tally maxHits :=
    searchFrom_tally report (w := ⟨state, []⟩) (Nat.zero_le _) 0 (withOrders patterns orders)
  have hrecording : searchAll maxHits report.recording (withOrders patterns orders) t (state, []) =
      walk.recorded.tally maxHits := by
    rw [← Walk.through_recording]
    exact searchFrom_tally report.recording (w := ⟨(state, []), []⟩) (Nat.zero_le _) 0
      (withOrders patterns orders)
  refine ⟨by rw [hrecording]; rfl, by rw [hsearch]; rfl, by rw [hsearch]; rfl,
    Walk.length_calls_through_le (Nat.zero_le _) lists, fun hit hhit => ?_, ?_, fun i p hp => ?_⟩
  · obtain ⟨hits, hmem, hhits⟩ := Walk.exists_list_of_mem_calls hit hhit
    obtain ⟨i, hi⟩ := List.mem_iff_getElem?.mp hmem
    rw [hlists, Option.map_eq_some_iff] at hi
    obtain ⟨p, hp, rfl⟩ := hi
    obtain ⟨m, hm, rfl⟩ := List.mem_map.mp hhits
    exact ⟨p, hp, hm⟩
  · simp only [lists, hitLists, withOrders, List.length_map, List.length_zipIdx]
  · exact ⟨_, by rw [hlists, hp]; rfl, fun cap hcap => searchPattern_storeHits p _ i hcap⟩

end GraphGrammar
