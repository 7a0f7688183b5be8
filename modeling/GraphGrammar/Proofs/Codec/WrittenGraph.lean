import GraphGrammar.Codec.WrittenGraph

/-!
# Which written graphs are accepted

A written graph is accepted when its version is supported and the endpoints of its edges are nodes.
The version is looked at first. An edge with an endpoint that is no node is reported with this
endpoint.

## Main definitions

* `GraphGrammar.WrittenGraph.IsSupported`, `GraphGrammar.WrittenGraph.EndpointsExist`.

## Main results

* `GraphGrammar.Graph.ofParts_eq_ok_iff` — graphs from labels and edges.
* `GraphGrammar.WrittenGraph.accept_eq_ok_iff` — the written graphs that are accepted.
-/

namespace GraphGrammar

/-! ### Graphs from labels and edges -/

namespace Graph

variable {g h : Graph} {labels : List String} {edges : List Edge}

theorem addEdge_eq_ok_iff {e : Edge} : g.addEdge e = .ok h ↔
    (e.source < g.labels.length ∧ e.target < g.labels.length) ∧
      h.labels = g.labels ∧ h.edges = g.edges ++ [e] := by
  obtain ⟨labels, edges, hlt⟩ := h
  rw [addEdge]
  split
  · next hs =>
    split
    · next ht =>
      rw [and_iff_right ⟨hs, ht⟩, Except.ok.injEq, Graph.mk.injEq, eq_comm,
        eq_comm (a := g.edges ++ [e])]
    · next ht => exact iff_of_false nofun fun h => ht h.1.2
  · next hs => exact iff_of_false nofun fun h => hs h.1.1

theorem addEdge_eq_error {e : Edge} {fault : Fault} (h : g.addEdge e = .error fault) :
    ¬(e.source < g.labels.length ∧ e.target < g.labels.length) ∧
      ∃ v, fault = .unknownNode v g.labels.length := by
  rw [addEdge] at h
  split at h
  · split at h
    · cases h
    · next ht => exact ⟨fun hlt => ht hlt.2, _, (Except.error.inj h).symm⟩
  · next hs => exact ⟨fun hlt => hs hlt.1, _, (Except.error.inj h).symm⟩

/-- Edges that are added one by one are all added, if all endpoints are nodes. -/
theorem foldlM_addEdge_eq_ok_iff : edges.foldlM addEdge g = .ok h ↔
    (∀ e ∈ edges, e.source < g.labels.length ∧ e.target < g.labels.length) ∧
      h.labels = g.labels ∧ h.edges = g.edges ++ edges := by
  induction edges generalizing g with
  | nil =>
    obtain ⟨labels, edges, hlt⟩ := h
    obtain ⟨labels', edges', hlt'⟩ := g
    simp only [List.foldlM_nil, List.append_nil, List.not_mem_nil, false_implies, implies_true,
      true_and]
    constructor
    · rintro h
      cases h
      exact ⟨rfl, rfl⟩
    · rintro ⟨rfl, rfl⟩
      rfl
  | cons e edges ih =>
    rw [List.foldlM_cons, List.forall_mem_cons]
    cases hadd : g.addEdge e with
    | error fault => exact iff_of_false nofun fun h => (addEdge_eq_error hadd).1 h.1.1
    | ok next =>
      obtain ⟨hlt, hlabels, hedges⟩ := addEdge_eq_ok_iff.mp hadd
      rw [and_iff_right hlt]
      refine ih.trans ?_
      rw [hlabels, hedges, List.append_assoc, List.singleton_append]

theorem foldlM_addEdge_eq_error {fault : Fault} (h : edges.foldlM addEdge g = .error fault) :
    ∃ v, fault = .unknownNode v g.labels.length := by
  induction edges generalizing g with
  | nil => cases h
  | cons e edges ih =>
    rw [List.foldlM_cons] at h
    cases hadd : g.addEdge e with
    | error fault' =>
      rw [hadd] at h
      cases h
      exact (addEdge_eq_error hadd).2
    | ok next =>
      rw [hadd] at h
      obtain ⟨v, hv⟩ := ih h
      exact ⟨v, (addEdge_eq_ok_iff.mp hadd).2.1 ▸ hv⟩

/-- **Graphs from labels and edges** are those with these labels and edges. -/
theorem ofParts_eq_ok_iff : ofParts labels edges = .ok g ↔
    (∀ e ∈ edges, e.source < labels.length ∧ e.target < labels.length) ∧
      g.labels = labels ∧ g.edges = edges := by
  rw [ofParts, foldlM_addEdge_eq_ok_iff, List.nil_append]

theorem ofParts_eq_error {fault : Fault} (h : ofParts labels edges = .error fault) :
    ∃ v, fault = .unknownNode v labels.length :=
  foldlM_addEdge_eq_error h

end Graph

/-! ### Written graphs -/

namespace WrittenGraph

variable {w : WrittenGraph} {g : Graph}

/-- The version is one that graphs are read in. -/
def IsSupported (w : WrittenGraph) : Prop := w.version.major = 1 ∧ w.version.minor = 0

/-- The endpoints of the edges are nodes. -/
def EndpointsExist (w : WrittenGraph) : Prop :=
  ∀ e ∈ w.edges, e.source < w.labels.length ∧ e.target < w.labels.length

instance (w : WrittenGraph) : Decidable w.IsSupported := inferInstanceAs (Decidable (_ ∧ _))

instance (w : WrittenGraph) : Decidable w.EndpointsExist :=
  inferInstanceAs (Decidable (∀ e ∈ w.edges, _))

theorem reads_iff_isSupported : SchemaVersion.graphForm.reads w.version = true ↔ w.IsSupported := by
  rw [SchemaVersion.reads, Bool.and_eq_true, beq_iff_eq, decide_eq_true_eq, eq_comm]
  refine and_congr_right fun _ => ⟨fun h => UInt32.toNat_inj.mp (Nat.le_zero.mp h), fun h => ?_⟩
  exact h ▸ UInt32.le_refl 0

/-- **The written graphs that are accepted.** -/
theorem accept_eq_ok_iff : w.accept = .ok g ↔
    w.IsSupported ∧ w.EndpointsExist ∧ g.labels = w.labels ∧ g.edges = w.edges := by
  rw [accept]
  split
  · next hreads =>
    rw [and_iff_right (reads_iff_isSupported.mp hreads)]
    exact Graph.ofParts_eq_ok_iff
  · next hreads =>
    exact iff_of_false nofun fun h => hreads (reads_iff_isSupported.mpr h.1)

theorem accept_of_not_isSupported (h : ¬w.IsSupported) :
    w.accept = .error (.unsupportedSchema .graph w.version) :=
  if_neg fun hreads => h (reads_iff_isSupported.mp hreads)

theorem accept_of_not_endpointsExist (hversion : w.IsSupported) (h : ¬w.EndpointsExist) :
    ∃ v, w.accept = .error (.unknownNode v w.labels.length) := by
  cases haccept : w.accept with
  | ok g => exact absurd (accept_eq_ok_iff.mp haccept).2.1 h
  | error fault =>
    rw [accept, if_pos (reads_iff_isSupported.mpr hversion)] at haccept
    obtain ⟨v, rfl⟩ := Graph.ofParts_eq_error haccept
    exact ⟨v, rfl⟩

theorem isSupported_written (g : Graph) : g.written.IsSupported := ⟨rfl, rfl⟩

theorem accept_written (g : Graph) : g.written.accept = .ok g :=
  accept_eq_ok_iff.mpr ⟨isSupported_written g, g.endpoints_lt, rfl, rfl⟩

end WrittenGraph

end GraphGrammar
