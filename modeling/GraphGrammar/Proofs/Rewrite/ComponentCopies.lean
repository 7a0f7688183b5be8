import GraphGrammar.Proofs.Arena.Spread
import GraphGrammar.Proofs.Graph.Components
import GraphGrammar.Proofs.Rewrite.Choices

/-!
# A copy for every component

Every component of the left side acts on a copy of its own of the component of the target in which
it was found. The copies are made one after the other, and the components of the target in which
none was found are copied at the end. What was copied so far is described by the spots of the host:
which node of the target every slot holds, and in which copy.

## Main definitions

* `GraphGrammar.Rule.hitOf` — the component of the target in which a component was found.
* `GraphGrammar.Rule.CopiedFor` — the copies that were made for some components.

## Main results

* `GraphGrammar.Rule.CopiedFor.step`, `GraphGrammar.Rule.copiedFor_foldl` — one more component of
  the left side, and all of them.
* `GraphGrammar.Rule.CopiedFor.extend_rest` — the rest of the target.
-/

namespace GraphGrammar

namespace Rule

variable {r : Rule} {t : GraphView} {ids mapping : List Nat}

/-- The number of the component of the target in which a component of the left side was found. -/
def hitOf (ids mapping component : List Nat) : Option Nat :=
  (component.head?.bind (mapping[·]?)).bind (ids[·]?)

/-- Whether a node is in the component of the target in which a component was found. -/
def isFound (ids mapping component : List Nat) (u : Nat) : Bool :=
  decide (ids[u]? = hitOf ids mapping component)

/-- The parts of the target that are copied: for every component the one in which it was found, and
what remains. -/
def foundParts (ids mapping : List Nat) (components : List (List Nat)) : List (Nat → Bool) :=
  components.map (isFound ids mapping) ++
    [fun u => components.all fun c => !isFound ids mapping c u]

theorem copyComponent_eq (t : GraphView) (ids mapping : List Nat) (s : ComponentCopies)
    (component : List Nat) : copyComponent t ids mapping s component =
      let copy := s.host.extend t (ids.map fun n => some n == hitOf ids mapping component)
      ⟨copy.1, s.images ++ component.filterMap (fun v => do
        some (v, ← (copy.2[← mapping[v]?]?).join)),
        s.copied ++ (hitOf ids mapping component).toList⟩ := rfl

/-- The copies that were made for some components of the left side, in their order: copy `k` holds
the nodes with the number found for component `k`. -/
structure CopiedFor (t : GraphView) (ids mapping : List Nat) (done : List (List Nat))
    (s : ComponentCopies) (g : Graph) (spots : List (Nat × Nat)) : Prop where
  /-- The host holds the copies. -/
  host_eq : s.host = Arena.host g
  /-- Every slot holds a node of the target in a copy. -/
  spreads : g.Spreads t spots
  /-- Every copy holds a component. -/
  mem_iff : ∀ {k u : Nat}, (k, u) ∈ spots ↔
    u < t.nodeCount ∧ ∃ c, done[k]? = some c ∧ ids[u]? = hitOf ids mapping c
  /-- The nodes of a component of the left side have their slots in its copy. -/
  images_iff : ∀ {v x : Nat}, (v, x) ∈ s.images ↔ ∃ (k : Nat) (c : List Nat) (u : Nat),
    done[k]? = some c ∧ v ∈ c ∧ mapping[v]? = some u ∧ spots[x]? = some (k, u)
  /-- The components that were found are noted. -/
  copied_iff : ∀ {n : Nat}, n ∈ s.copied ↔ ∃ c ∈ done, hitOf ids mapping c = some n

theorem copiedFor_nil (t : GraphView) (ids mapping : List Nat) :
    CopiedFor t ids mapping [] ⟨Arena.empty, [], []⟩ Graph.empty [] where
  host_eq := rfl
  spreads := Graph.spreads_empty t
  mem_iff := by simp
  images_iff := by simp
  copied_iff := by simp

/-- The slot of a node in a copy that was added. -/
theorem join_getElem?_slots {g : Graph} {spots : List (Nat × Nat)} {k : Nat} {keep : Nat → Bool}
    (h : g.Spreads t spots) (hk : ∀ spot ∈ spots, spot.1 ≠ k) {u x : Nat} :
    (((List.range t.nodeCount).map fun v =>
      if keep v then some (g.nodeCount + rank keep v) else none)[u]?).join = some x ↔
    (spots ++ t.spotsOf k keep)[x]? = some (k, u) := by
  rw [Graph.Spreads.getElem?_append_spotsOf, List.getElem?_map]
  have hold : ¬spots[x]? = some (k, u) := fun hx => hk _ (List.mem_of_getElem? hx) rfl
  rcases Nat.lt_or_ge u t.nodeCount with hu | hu
  · rw [List.getElem?_range hu, h.nodeCount_eq]
    cases hkeep : keep u with
    | true =>
      simp only [Option.map_some, hkeep, if_true, Option.join_some, Option.some.injEq, hold, hu,
        true_and, false_or]
      exact eq_comm
    | false => simp [hold, hkeep]
  · rw [List.getElem?_eq_none (by simpa using hu)]
    simp [hold, Nat.not_lt.mpr hu]

namespace CopiedFor

variable {done : List (List Nat)} {s : ComponentCopies} {g : Graph} {spots : List (Nat × Nat)}
  (h : CopiedFor t ids mapping done s g spots)

include h

theorem lt_of_mem {spot : Nat × Nat} (hspot : spot ∈ spots) : spot.1 < done.length := by
  obtain ⟨-, c, hc, -⟩ := h.mem_iff.mp (show (spot.1, spot.2) ∈ spots from hspot)
  exact (List.getElem?_eq_some_iff.mp hc).1

/-- **One more component** gets one more copy. -/
theorem step (hids : ids.length = t.nodeCount) (component : List Nat) :
    CopiedFor t ids mapping (done ++ [component]) (copyComponent t ids mapping s component)
      (g.append (t.part (isFound ids mapping component)))
      (spots ++ t.spotsOf done.length (isFound ids mapping component)) := by
  have hflags : ∀ u < t.nodeCount, (ids.map fun n => some n == hitOf ids mapping component).getD u
      false = isFound ids mapping component u := by
    intro u hu
    have hlt : u < ids.length := hids ▸ hu
    simp [List.getD_eq_getElem?_getD, isFound, hlt, Bool.beq_eq_decide_eq]
  have hk : ∀ spot ∈ spots, spot.1 ≠ done.length := fun spot hspot =>
    Nat.ne_of_lt (h.lt_of_mem hspot)
  let keep : Nat → Bool := isFound ids mapping component
  let slots : List (Option Nat) := (List.range t.nodeCount).map fun v =>
    if keep v then some (g.nodeCount + rank keep v) else none
  have hkeep : ∀ {u}, keep u = true ↔ ids[u]? = hitOf ids mapping component := decide_eq_true_iff
  have hcopy : copyComponent t ids mapping s component =
      ⟨Arena.host (g.append (t.part keep)), s.images ++ component.filterMap (fun v => do
        some (v, ← (slots[← mapping[v]?]?).join)),
      s.copied ++ (hitOf ids mapping component).toList⟩ := by
    rw [copyComponent_eq, h.host_eq, Arena.extend_host_of_flags g hflags]
  rw [hcopy]
  refine ⟨rfl, h.spreads.append_part hk keep, fun {k u} => ?_, fun {v x} => ?_, fun {n} => ?_⟩
  · simp only [List.mem_append, h.mem_iff, GraphView.mem_spotsOf,
      getElem?_append_singleton_eq_some_iff]
    constructor
    · rintro (⟨hu, c, hc, hid⟩ | ⟨rfl, hu, hid⟩)
      · exact ⟨hu, c, .inl hc, hid⟩
      · exact ⟨hu, component, .inr ⟨rfl, rfl⟩, hkeep.mp hid⟩
    · rintro ⟨hu, c, hc | ⟨rfl, rfl⟩, hid⟩
      · exact .inl ⟨hu, c, hc, hid⟩
      · exact .inr ⟨rfl, hu, hkeep.mpr hid⟩
  · have hnew : (v, x) ∈ component.filterMap (fun v => do
        some (v, ← (slots[← mapping[v]?]?).join)) ↔ v ∈ component ∧ ∃ u, mapping[v]? = some u ∧
          (spots ++ t.spotsOf done.length keep)[x]? = some (done.length, u) := by
      simp only [List.mem_filterMap, Option.bind_eq_bind, Option.bind_eq_some_iff,
        Option.some.injEq, Prod.mk.injEq, ← join_getElem?_slots h.spreads hk]
      constructor
      · rintro ⟨v, hv, u, hu, x, hx, rfl, rfl⟩
        exact ⟨hv, u, hu, hx⟩
      · rintro ⟨hv, u, hu, hx⟩
        exact ⟨v, hv, u, hu, x, hx, rfl, rfl⟩
    simp only [List.mem_append, h.images_iff, hnew, getElem?_append_singleton_eq_some_iff]
    constructor
    · rintro (⟨k, c, u, hc, hv, hu, hx⟩ | ⟨hv, u, hu, hx⟩)
      · exact ⟨k, c, u, .inl hc, hv, hu, Graph.Spreads.getElem?_append_spotsOf.mpr (.inl hx)⟩
      · exact ⟨_, component, u, .inr ⟨rfl, rfl⟩, hv, hu, hx⟩
    · rintro ⟨k, c, u, hc | ⟨rfl, rfl⟩, hv, hu, hx⟩
      · rcases Graph.Spreads.getElem?_append_spotsOf.mp hx with hx | ⟨rfl, -⟩
        · exact .inl ⟨k, c, u, hc, hv, hu, hx⟩
        · exact absurd (List.getElem?_eq_some_iff.mp hc).1 (Nat.lt_irrefl _)
      · exact .inr ⟨hv, u, hu, hx⟩
  · simp only [List.mem_append, h.copied_iff, Option.mem_toList, List.mem_singleton, or_and_right,
      exists_or, exists_eq_left]

/-- **The components in which none was found** are copied at the end. -/
theorem extend_rest (hids : ids.length = t.nodeCount) :
    (s.host.extend t (ids.map fun n => !s.copied.contains n)).1 =
      Arena.host (g.append (t.part fun u => done.all fun c => !isFound ids mapping c u)) := by
  rw [h.host_eq, Arena.extend_host_of_flags]
  intro u hu
  have hlt : u < ids.length := hids ▸ hu
  have hnot : (ids.map fun n => !s.copied.contains n).getD u false = true ↔ ids[u] ∉ s.copied := by
    simp [List.getD_eq_getElem?_getD, hlt]
  rw [Bool.eq_iff_iff, hnot, h.copied_iff, List.all_eq_true]
  simp only [not_exists, not_and, isFound, List.getElem?_eq_getElem hlt, Bool.not_eq_true',
    decide_eq_false_iff_not, eq_comm (a := some ids[u])]

end CopiedFor

/-- **All components** get their copies. -/
theorem copiedFor_foldl (t : GraphView) {ids : List Nat} (mapping : List Nat)
    (hids : ids.length = t.nodeCount) (components : List (List Nat)) :
    CopiedFor t ids mapping components
      (components.foldl (copyComponent t ids mapping) ⟨Arena.empty, [], []⟩)
      (t.parts (components.map (isFound ids mapping)))
      (t.spotsOfParts (components.map (isFound ids mapping))) := by
  induction components using List.reverseRecOn with
  | nil => exact copiedFor_nil t ids mapping
  | append_singleton done component ih =>
    have hstep := ih.step hids component
    rw [List.foldl_concat, List.map_append, List.map_singleton, GraphView.parts_append_singleton,
      GraphView.spotsOfParts_append_singleton, List.length_map]
    exact hstep

end Rule

end GraphGrammar
