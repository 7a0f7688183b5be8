import GraphGrammar.Proofs.Graph.Bonds
import GraphGrammar.Proofs.Lists
import GraphGrammar.Proofs.Rewrite.Result

/-!
# The edges that a step takes away

The edges of a host are those that were given to left-only edges and those that were not. Which
labels are given away between two slots depends only on what the edges of the left side between them
ask for, in the order in which they are served, and on the labels of the edges of the host between
them.

## Main definitions

* `GraphGrammar.Rule.removedLabels` — the labels that are given away between two slots.
* `GraphGrammar.consumed` — the labels that are given away, as far as only labels count.
* `GraphGrammar.Rule.demands`, `GraphGrammar.Rule.takes` — what is asked for and what is given away
  between two rule nodes.

## Main results

* `GraphGrammar.Rule.edges_perm_untaken` — the edges of the host, given away or not.
* `GraphGrammar.Rule.removedLabels_eq` — what is given away depends on labels only.
* `GraphGrammar.Rule.removedLabels_of_literal` — left-only edges with literal labels.
-/

namespace GraphGrammar

/-- What an edge of the left side asks for, and whether that is taken away. -/
def RuleEdge.demand (e : RuleEdge) : String × EdgeRole := (e.label, e.role)

/-- The labels that are taken away when demands are served one after the other. -/
def consumed (wildcard : Option String) (demands : List (String × EdgeRole))
    (available : List String) : List String :=
  ((demands.zip ((choose (fun d l => labelFits wildcard d.1 l) demands available).getD [])).filter
    fun c => c.1.2 = .leftOnly).map Prod.snd

/-- The edge in a slot of a host; without such an edge it has no meaning. -/
def Graph.edgeAt (g : Graph) (i : Nat) : Edge := (g.edges[i]?).getD ⟨0, 0, ""⟩

theorem Graph.edgeAt_of_getElem? {g : Graph} {i : Nat} {e : Edge} (h : g.edges[i]? = some e) :
    g.edgeAt i = e := by
  rw [edgeAt, h, Option.getD_some]

theorem Graph.map_edgeAt_range (g : Graph) :
    (List.range g.edges.length).map g.edgeAt = g.edges := by
  refine List.ext_getElem (by simp) fun i hi hi' => ?_
  rw [List.getElem_map, List.getElem_range, edgeAt_of_getElem? (List.getElem?_eq_getElem hi')]

namespace Rule

variable {r : Rule} {image : Images} {g : Graph} {choices : List (RuleEdge × Nat)}

/-! ### Given away or not -/

theorem untaken_eq_map_edgeAt (g : Graph) (choices : List (RuleEdge × Nat)) : untaken g choices =
    ((List.range g.edges.length).filter fun i => i ∉ removedBy choices).map g.edgeAt := by
  have hrange : List.range g.edges.length = (List.finRange g.edges.length).map Fin.val :=
    List.ext_getElem (by simp) fun i hi hi' => by simp
  rw [untaken_eq, hrange, List.filter_map, List.map_map]
  refine List.map_congr_left fun j _ => ?_
  exact (Graph.edgeAt_of_getElem? (List.getElem?_eq_getElem j.isLt)).symm

/-- What an edge of the left side is given is an edge between its slots. -/
theorem exists_edge_of_mem_slotsAt {pair : Nat × Nat} {i : Nat}
    (h : i ∈ slotsAt (g.edges.map some) pair) :
    g.edges[i]? = some (g.edgeAt i) ∧ (g.edgeAt i).connects pair.1 pair.2 = true := by
  obtain ⟨e, he, hconnects⟩ := mem_slotsWhere.mp h
  rw [List.getElem?_map] at he
  cases hget : g.edges[i]? with
  | none =>
    rw [hget] at he
    cases he
  | some e' =>
    rw [hget] at he
    cases he
    rw [Graph.edgeAt_of_getElem? hget]
    exact ⟨rfl, hconnects⟩

/-- What was given away lies in the host. -/
theorem lt_of_mem_removedBy (h : r.choices image (g.edges.map some) = some choices) {i : Nat}
    (hi : i ∈ removedBy choices) : i < g.edges.length := by
  obtain ⟨e, he, -⟩ := mem_removedBy.mp hi
  exact (List.getElem?_eq_some_iff.mp (exists_edge_of_mem_slotsAt (choices_spec h he).1).1).1

/-- **The edges of a host** are those that were not given away and those that were. -/
theorem edges_perm_untaken (h : r.choices image (g.edges.map some) = some choices) :
    g.edges.Perm (untaken g choices ++ (removedBy choices).map g.edgeAt) := by
  have hremoved : ((List.range g.edges.length).filter fun i => i ∈ removedBy choices).Perm
      (removedBy choices) := by
    have hnodup : (removedBy choices).Nodup :=
      (nodup_map_snd_choices h).sublist (List.filter_sublist.map _)
    refine (List.perm_ext_iff_of_nodup (List.nodup_range.filter _) hnodup).mpr fun i => ?_
    rw [List.mem_filter, decide_eq_true_eq, List.mem_range]
    exact and_iff_right_of_imp (lt_of_mem_removedBy h)
  conv_lhs => rw [← Graph.map_edgeAt_range]
  rw [untaken_eq_map_edgeAt, ← List.map_append]
  refine List.Perm.map _ ?_
  refine (List.filter_append_perm (fun i => decide (i ∈ removedBy choices)) _).symm.trans ?_
  refine List.perm_append_comm.trans ?_
  simp only [← decide_not]
  exact List.Perm.append_left _ hremoved

/-! ### Pair by pair -/

/-- The edges of the left side between two slots with the slots given to them, if everybody gets
one. -/
def servedAt (r : Rule) (image : Images) (g : Graph) (x y : Nat) : List (RuleEdge × Nat) :=
  (r.choicesAt image (g.edges.map some) (min x y, max x y)).getD []

/-- The labels that are given away between two slots. -/
def removedLabels (r : Rule) (image : Images) (g : Graph) (x y : Nat) : List String :=
  (removedBy (r.servedAt image g x y)).map fun i => (g.edgeAt i).label

theorem removedLabels_comm (image : Images) (g : Graph) (x y : Nat) :
    r.removedLabels image g x y = r.removedLabels image g y x := by
  rw [removedLabels, removedLabels, servedAt, servedAt, Nat.min_comm, Nat.max_comm]

theorem removedBy_flatMap {α : Type} (l : List α) (f : α → List (RuleEdge × Nat)) :
    removedBy (l.flatMap f) = l.flatMap fun a => removedBy (f a) := by
  rw [removedBy, List.filter_flatMap, List.map_flatMap]
  rfl

/-- What is given away between two slots, picked from all that is given away. -/
theorem filter_removedBy (h : r.choices image (g.edges.map some) = some choices) (x y : Nat) :
    (removedBy choices).filter (fun i => (g.edgeAt i).connects x y) =
      removedBy (r.servedAt image g x y) := by
  obtain ⟨hsome, rfl⟩ := choices_eq_some_iff.mp h
  let removedAt : Nat × Nat → List Nat := fun pair =>
    removedBy ((r.choicesAt image (g.edges.map some) pair).getD [])
  have hbond : ∀ pair, ∀ i ∈ removedAt pair, (g.edgeAt i).connects pair.1 pair.2 = true := by
    intro pair i hi
    obtain ⟨e, he, -⟩ := mem_removedBy.mp hi
    obtain ⟨part, hpart⟩ := Option.isSome_iff_exists.mp (isSome_choicesAt h pair)
    rw [hpart, Option.getD_some] at he
    exact (exists_edge_of_mem_slotsAt (mem_slotsAt_of_mem_choicesAt hpart he)).2
  -- An edge joins one pair of slots only.
  have hpairs : ∀ pair ∈ placedPairs (r.placedEdges image), ∀ i ∈ removedAt pair,
      (g.edgeAt i).connects x y = true → pair = (min x y, max x y) := by
    intro pair hpair i hi hconnects
    have hends := (Edge.connects_iff.mp (hbond pair i hi)).symm.trans
      (Edge.connects_iff.mp hconnects)
    have hle := le_of_mem_pairs hpair
    rw [Sym2.eq_iff] at hends
    refine Prod.ext ?_ ?_ <;> simp only <;> omega
  rw [removedBy_flatMap, List.filter_flatMap]
  by_cases hmem : (min x y, max x y) ∈ placedPairs (r.placedEdges image)
  · rw [flatMap_eq_apply (nodup_placedPairs _) hmem]
    · refine List.filter_eq_self.mpr fun i hi => ?_
      have hconnects := Edge.connects_iff.mp (hbond _ i hi)
      rw [Edge.connects_iff, hconnects, Sym2.eq_iff]
      simp only
      omega
    · exact fun pair hpair hne => List.filter_eq_nil_iff.mpr fun i hi hconnects =>
        hne (hpairs pair hpair i hi hconnects)
  · have hnone : r.edgesAt image (min x y, max x y) = [] := by
      refine List.eq_nil_iff_forall_not_mem.mpr fun e he => hmem (mem_pairs_iff.mpr ⟨e, ?_⟩)
      exact mem_edgesAt.mp he
    rw [servedAt, choicesAt, hnone, choose]
    exact List.flatMap_eq_nil_iff.mpr fun pair hpair => List.filter_eq_nil_iff.mpr
      fun i hi hconnects => hmem (hpairs pair hpair i hi hconnects ▸ hpair)

theorem labelsAmong_removedBy (h : r.choices image (g.edges.map some) = some choices) (x y : Nat) :
    labelsAmong ((removedBy choices).map g.edgeAt) x y = r.removedLabels image g x y := by
  rw [labelsAmong, List.filter_map, List.map_map, removedLabels, ← filter_removedBy h]
  rfl

/-! ### Labels only -/

theorem labelsAmong_min_max (edges : List Edge) (x y : Nat) :
    labelsAmong edges (min x y) (max x y) = labelsAmong edges x y := by
  rcases Nat.le_total x y with hle | hle
  · rw [Nat.min_eq_left hle, Nat.max_eq_right hle]
  · rw [Nat.min_eq_right hle, Nat.max_eq_left hle, labelsAmong_comm]

/-- The labels between two slots, read slot by slot. -/
theorem map_slotsAt (edges : List (Option Edge)) (pair : Nat × Nat) :
    (slotsAt edges pair).map (fun i => ((edges[i]?).join.map (·.label)).getD "") =
      labelsAmong (present edges) pair.1 pair.2 := by
  have hread := filterMap_slotsWhere (fun e => e.connects pair.1 pair.2)
    (fun e => some e.label) edges
  rw [List.filterMap_eq_map'] at hread
  rw [labelsAmong, ← hread, ← List.filterMap_eq_map']
  refine List.filterMap_congr fun i hi => ?_
  obtain ⟨e, he, -⟩ := mem_slotsWhere.mp hi
  rw [he]
  rfl

theorem labelsAmong_eq_map_slotsAt (g : Graph) (x y : Nat) : labelsAmong g.edges x y =
    (slotsAt (g.edges.map some) (min x y, max x y)).map fun i => (g.edgeAt i).label := by
  have hread := map_slotsAt (g.edges.map some) (min x y, max x y)
  rw [present_map_some, labelsAmong_min_max] at hread
  rw [← hread]
  refine List.map_congr_left fun i hi => ?_
  rw [List.getElem?_map, (exists_edge_of_mem_slotsAt hi).1]
  rfl

theorem fitsSlot_eq {pair : Nat × Nat} {i : Nat} (h : i ∈ slotsAt (g.edges.map some) pair)
    (e : RuleEdge) : r.fitsSlot (g.edges.map some) e i =
      labelFits r.wildcard e.label (g.edgeAt i).label := by
  rw [fitsSlot, List.getElem?_map, (exists_edge_of_mem_slotsAt h).1]
  rfl

/-- Serving the edges of the left side between two slots is serving their labels. -/
theorem choose_demands (r : Rule) (image : Images) (g : Graph) (x y : Nat) :
    choose (fun d l => labelFits r.wildcard d.1 l)
      ((r.edgesAt image (min x y, max x y)).map RuleEdge.demand) (labelsAmong g.edges x y) =
    (choose (r.fitsSlot (g.edges.map some)) (r.edgesAt image (min x y, max x y))
      (slotsAt (g.edges.map some) (min x y, max x y))).map
        (List.map fun i => (g.edgeAt i).label) := by
  rw [labelsAmong_eq_map_slotsAt, choose_map_requests, choose_map]
  refine congrArg _ (choose_congr (fun e i hi => ?_) _)
  exact (fitsSlot_eq hi e).symm

/-- **What is given away** between two slots depends on labels only. -/
theorem removedLabels_eq (r : Rule) (image : Images) (g : Graph) (x y : Nat) :
    r.removedLabels image g x y = consumed r.wildcard
      ((r.edgesAt image (min x y, max x y)).map RuleEdge.demand) (labelsAmong g.edges x y) := by
  rw [consumed, choose_demands, removedLabels, servedAt, choicesAt]
  cases choose (r.fitsSlot (g.edges.map some)) (r.edgesAt image (min x y, max x y))
    (slotsAt (g.edges.map some) (min x y, max x y)) with
  | none => simp [removedBy]
  | some chosen =>
    rw [Option.map_some, Option.map_some, Option.getD_some, Option.getD_some, List.zip_map,
      List.filter_map, List.map_map, removedBy, List.map_map]
    rfl

/-- Left-only edges with literal labels are given edges with these labels. -/
theorem removedLabels_of_literal {x y : Nat}
    (hsome : (r.choicesAt image (g.edges.map some) (min x y, max x y)).isSome = true)
    (hliteral : ∀ e ∈ r.edgesAt image (min x y, max x y), e.role = .leftOnly →
      r.wildcard ≠ some e.label) :
    r.removedLabels image g x y =
      (((r.edgesAt image (min x y, max x y)).map RuleEdge.demand).filter
        fun d => d.2 = .leftOnly).map Prod.fst := by
  obtain ⟨part, hpart⟩ := Option.isSome_iff_exists.mp hsome
  rw [removedLabels, servedAt, hpart, Option.getD_some, removedBy, List.map_map,
    ← map_fst_choicesAt hpart, List.map_map, List.filter_map, List.map_map]
  refine List.map_congr_left fun c hc => ?_
  obtain ⟨hc, hrole⟩ := List.mem_filter.mp hc
  rw [decide_eq_true_eq] at hrole
  obtain ⟨hslot, hfits⟩ := (choicesAt_spec hpart).2 c.1 c.2 hc
  rw [fitsSlot_eq hslot] at hfits
  have hmem : c.1 ∈ r.edgesAt image (min x y, max x y) := by
    rw [← map_fst_choicesAt hpart]
    exact List.mem_map_of_mem hc
  exact (eq_of_labelFits hfits (hliteral c.1 hmem hrole)).symm

/-! ### Between rule nodes -/

/-- What the edges of the left side between two rule nodes ask for, in the order in which they are
served. -/
def demands (r : Rule) (a b : Nat) : List (String × EdgeRole) :=
  ((r.leftEdges.filter fun e => s(e.source, e.target) = s(a, b)).mergeSort
    fun e e' => r.turn e ≤ r.turn e').map RuleEdge.demand

/-- The labels that the left-only edges between two rule nodes take, of those of the edges between
their images. -/
def takes (r : Rule) (a b : Nat) (labels : List String) : List String :=
  consumed r.wildcard (r.demands a b) labels

theorem pairOf_eq_iff {e : RuleEdge} {x y : Nat} : pairOf image e = (min x y, max x y) ↔
    s(image.slot e.source, image.slot e.target) = s(x, y) := by
  rw [pairOf, Prod.mk.injEq, Sym2.eq_iff]
  omega

/-- What is asked for between the slots of two rule nodes. -/
theorem Placed.map_demand_edgesAt {n : Nat} (h : r.Placed image n) (hr : r.isConsistent = true)
    {a b x y : Nat} (ha : image.slot? a = some x) (hb : image.slot? b = some y) :
    (r.edgesAt image (min x y, max x y)).map RuleEdge.demand = r.demands a b := by
  rw [edgesAt_eq, demands]
  refine congrArg (List.map _ <| List.mergeSort · _) (List.filter_congr fun e he => ?_)
  obtain ⟨⟨hs, -⟩, ht, -⟩ := h.slot?_of_mem_leftEdges hr he
  have hslot : ∀ {u v s s' : Nat}, image.slot? u = some s → image.slot? v = some s' →
      (s = s' ↔ u = v) := by
    intro u v s s' hu hv
    refine ⟨fun heq => h.inj hu (heq ▸ hv), fun heq => ?_⟩
    rw [heq, hv] at hu
    exact (Option.some.inj hu).symm
  rw [Bool.eq_iff_iff, beq_iff_eq, decide_eq_true_eq, pairOf_eq_iff, Sym2.eq_iff, Sym2.eq_iff,
    hslot hs ha, hslot ht hb, hslot hs hb, hslot ht ha]

/-- What is given away between the slots of two rule nodes. -/
theorem Placed.removedLabels_eq {n : Nat} (h : r.Placed image n) (hr : r.isConsistent = true)
    {a b x y : Nat} (ha : image.slot? a = some x) (hb : image.slot? b = some y) :
    r.removedLabels image g x y = r.takes a b (labelsAmong g.edges x y) := by
  rw [Rule.removedLabels_eq, h.map_demand_edgesAt hr ha hb, takes]

end Rule

end GraphGrammar
