import GraphGrammar.Proofs.Rewrite.Equivariance
import GraphGrammar.Proofs.Rewrite.Frame
import GraphGrammar.Proofs.Rewrite.Meaning

/-!
# Independent steps

Two steps that act on different components of a target do not interfere. Each of them makes of its
own part of the target what it would make of this part alone, and leaves the other part as it is,
with its edges in their order, so that what is left over for wildcards is the same whichever step
comes first. In either order the result consists of what both steps make of their parts.

## Main definitions

* `GraphGrammar.Rule.renumber` — the numbers of nodes after other nodes were deleted.
* `GraphGrammar.Graph.ReadIn` — a part of a target whose edges are read in a given order.
* `GraphGrammar.Beside` — a target that consists of two graphs.

## Main results

* `GraphGrammar.Beside.exists_step` — a step on one of the graphs.
* `GraphGrammar.Beside.exists_two_steps` — a step on either.
* `GraphGrammar.applyRule_comm` — steps on different components commute.
-/

namespace GraphGrammar

namespace Rule

variable {r : Rule} {t : GraphView} {m : List Nat}

/-- The number of a node after the nodes that a step deletes are gone: less by the number of deleted
nodes below it. -/
def renumber (r : Rule) (m : List Nat) (v : Nat) : Nat := v - (List.range v).countP (r.deletes m)

theorem renumber_eq_newNumber (r : Rule) (m : List Nat) (v : Nat) :
    r.renumber m v = r.newNumber m v := by
  have hsplit := rank_add_rank_not (r.deletes m) v
  rw [renumber, newNumber]
  rw [rank] at hsplit
  omega

/-! ### Mappings into parts -/

theorem mem_of_imageOf {v u : Nat} (h : r.imageOf m v = some u) : u ∈ m := by
  obtain ⟨i, -, hu⟩ := imageOf_eq_some_iff.mp h
  exact List.mem_of_getElem? hu

/-- A rule can be applied in a part of a target that holds all images. -/
theorem Applicable.part (h : r.Applicable t m) {keep : Nat → Bool}
    (hkeep : ∀ u ∈ m, keep u = true) : r.Applicable (t.part keep).view (m.map (rank keep)) where
  occurrence := by
    refine ⟨(List.length_map _).trans h.occurrence.length_eq, ?_, ?_⟩
    · rw [List.forall_mem_map]
      intro u hu
      have hlt := rank_lt_rank (hkeep u hu) (h.occurrence.lt_nodeCount u hu)
      rwa [← t.nodeCount_part] at hlt
    · exact h.occurrence.nodup.map_on fun u hu v hv => rank_inj (hkeep u hu) (hkeep v hv)
  fits {a b u v} ha hb := by
    rw [imageOf_map, Option.map_eq_some_iff] at ha hb
    obtain ⟨u, ha, rfl⟩ := ha
    obtain ⟨v, hb, rfl⟩ := hb
    rw [Graph.labelsBetween_view, Graph.Spreads.labelsAmong_part (hkeep u (mem_of_imageOf ha))
      (hkeep v (mem_of_imageOf hb)),
      labelsFit_congr (List.Perm.refl _) (t.labelsAmong_edgeList u v)]
    exact h.fits ha hb

/-- A rule can still be applied when another graph is put behind the target. -/
theorem Applicable.append {a : Graph} (h : r.Applicable a.view m) (b : Graph) :
    r.Applicable (a.append b).view m where
  occurrence := by
    refine ⟨h.occurrence.length_eq, fun u hu => ?_, h.occurrence.nodup⟩
    have hlt := h.occurrence.lt_nodeCount u hu
    rw [Graph.view_nodeCount, Graph.labels_append, List.length_append]
    exact Nat.lt_of_lt_of_le hlt (Nat.le_add_right ..)
  fits {_ _ u v} hu hv := by
    have hlt : u < a.nodeCount := h.occurrence.imageOf_lt hu
    rw [Graph.labelsBetween_view, Graph.labelsAmong_append_of_lt hlt, ← Graph.labelsBetween_view]
    exact h.fits hu hv

/-! ### A host and a target -/

/-- A step can be made in a host at a mapping into it. -/
theorem Applicable.exists_rework_host {g : Graph} (h : r.Applicable g.view m)
    (hr : r.isConsistent = true) (mode : Relabeling) : r.Placed (r.imagesAt m some) g.nodeCount ∧
      ∃ choices result, r.choices (r.imagesAt m some) (g.edges.map some) = some choices ∧
        r.rework mode (r.imagesAt m some) (Arena.host g) = .ok result := by
  have hplaced : r.Placed (r.imagesAt m some) g.nodeCount := h.occurrence.placed
  refine ⟨hplaced, hplaced.exists_rework hr mode fun hx hy => ?_⟩
  rw [slot?_copy] at hx hy
  rw [← Graph.labelsBetween_view]
  exact h.fits hx hy

/-- **A step in a host and in a target** that are isomorphic, with the same labels in the same order
between images: the results are isomorphic, and nodes that stay correspond as before. -/
theorem Applicable.exists_isIso_rewrite {g : Graph} (h : r.Applicable g.view m)
    (hr : r.isConsistent = true) {mode : Relabeling} {f : Nat → Nat}
    (hf : GraphView.IsIso f g.view t)
    (hordered : ∀ u ∈ m, ∀ v ∈ m, labelsAmong t.edgeList (f u) (f v) = labelsAmong g.edges u v)
    {result' : Graph} (hresult' : r.rework mode (r.imagesAt m some) (Arena.host g) = .ok result') :
    ∃ result number, r.rewrite ⟨false, mode⟩ t (m.map f) = .ok result ∧
      GraphView.IsIso number result'.view result.view ∧
      ∀ s < g.nodeCount, r.deletes m s = false →
        number (r.newNumber m s) = r.newNumber (m.map f) (f s) := by
  have hmap := h.map hf
  have htarget : r.Applicable t.toGraph.view (m.map f) := h.map (hf.trans t.isIso_toGraph_symm)
  obtain ⟨hplaced', choices', -, hchoices', -⟩ := h.exists_rework_host hr mode
  obtain ⟨hplaced, choices, result, hchoices, hresult⟩ := htarget.exists_rework_host hr mode
  have htwins : r.Twins (fun v => v) f (r.imagesAt m some) g (r.imagesAt (m.map f) some)
      t.toGraph :=
    { automorphism := automorphism_id r
      isIso := hf.trans t.isIso_toGraph_symm
      placed' := hplaced'
      placed := hplaced
      slot_eq := fun {v s} hs => by
        rw [slot?_copy] at hs ⊢
        rw [imageOf_map, hs, Option.map_some] }
  have hwild : ∀ e ∈ r.edges, e.role = .leftOnly → r.wildcard = some e.label →
      (∀ labels, (r.takes e.source e.target labels).Perm (r.takes e.source e.target labels)) ∧
      labelsAmong t.toGraph.edges ((r.imagesAt (m.map f) some).slot e.source)
          ((r.imagesAt (m.map f) some).slot e.target) =
        labelsAmong g.edges ((r.imagesAt m some).slot e.source)
          ((r.imagesAt m some).slot e.target) := by
    intro e he hrole _
    have hleft : e ∈ r.leftEdges := List.mem_filter.mpr ⟨he, by rw [hrole]; rfl⟩
    obtain ⟨⟨hs, hs', -⟩, ht, ht', -⟩ := htwins.slot_of_mem_leftEdges hr hleft
    rw [slot?_copy] at hs ht
    refine ⟨fun _ => List.Perm.refl _, ?_⟩
    rw [hs', ht']
    exact hordered _ (mem_of_imageOf hs) _ (mem_of_imageOf ht)
  obtain ⟨number, hiso, hnumber⟩ := htwins.exists_isIso
    (htwins.untaken_perm hr hchoices' hchoices hwild) hr hchoices' hchoices hresult' hresult
  refine ⟨result, number, (hmap.occurrence.rewrite_eq_rework mode).trans hresult, hiso,
    fun s hs hstays => ?_⟩
  rw [stays_copy h.occurrence, stays_copy hmap.occurrence] at hnumber
  exact hnumber s hs (congrArg not hstays)

/-- **Between nodes that are no images** the same edges are there after a step, in the same order.
-/
theorem Applicable.labelsAmong_rewrite (h : r.Applicable t m) (hr : r.isConsistent = true)
    {mode : Relabeling} {g : Graph} (hg : r.rewrite ⟨false, mode⟩ t m = .ok g) {u v : Nat}
    (hu : u < t.nodeCount) (hv : v < t.nodeCount) (hum : u ∉ m) (hvm : v ∉ m) :
    labelsAmong g.view.edgeList (r.newNumber m u) (r.newNumber m v) =
      labelsAmong t.edgeList u v := by
  have hfree : ∀ {u}, u ∉ m → ∀ w, (r.imagesAt m some).slot? w ≠ some u := by
    intro u hum w hw
    rw [slot?_copy] at hw
    exact hum (mem_of_imageOf hw)
  have hcount := t.nodeCount_toGraph
  have hplaced : r.Placed (r.imagesAt m some) t.toGraph.nodeCount := hcount ▸ h.occurrence.placed
  rw [h.occurrence.rewrite_eq_rework] at hg
  obtain ⟨choices, hchoices⟩ := hplaced.exists_choices_of_rework hr hg
  rw [Graph.labelsAmong_edgeList_view]
  have hresult := hplaced.labelsAmong_result hr hchoices hg (hcount ▸ hu) (hcount ▸ hv) (hfree hum)
    (hfree hvm)
  rwa [stays_copy h.occurrence] at hresult

end Rule

/-! ### Two graphs side by side -/

/-- Between nodes of a graph that is a part of a target, the edges of the target are read in the
order in which they are in the graph. -/
def Graph.ReadIn (f : Nat → Nat) (a : Graph) (t : GraphView) : Prop :=
  ∀ u v, u < a.nodeCount → v < a.nodeCount →
    labelsAmong t.edgeList (f u) (f v) = labelsAmong a.edges u v

theorem Graph.ReadIn.crossed {f : Nat → Nat} {n : Nat} {b : Graph} {t : GraphView}
    (h : b.ReadIn (fun v => f (n + v)) t) :
    b.ReadIn (fun v => f (Graph.crossed n b.nodeCount v)) t := by
  intro u v hu hv
  simp only [Graph.crossed_of_lt hu, Graph.crossed_of_lt hv]
  exact h u v hu hv

theorem GraphView.readIn_part {t : GraphView} {keep : Nat → Bool} {f : Nat → Nat}
    (h : ∀ u < t.nodeCount, keep u = true → f (rank keep u) = u) : (t.part keep).ReadIn f t := by
  intro k l hk hl
  rw [t.nodeCount_part] at hk hl
  obtain ⟨u, hu, hku, rfl⟩ := exists_rank_eq hk
  obtain ⟨v, hv, hkv, rfl⟩ := exists_rank_eq hl
  rw [h u hu hku, h v hv hkv, Graph.Spreads.labelsAmong_part hku hkv]

/-- A target that consists of two graphs side by side. Edges between nodes of the first one are read
in the order in which they are there. -/
structure Beside (f : Nat → Nat) (a b : Graph) (t : GraphView) : Prop where
  /-- The graphs side by side are the target. -/
  isIso : GraphView.IsIso f (a.append b).view t
  /-- The edges of the first graph are read in their order. -/
  readIn : a.ReadIn f t

namespace Beside

variable {f : Nat → Nat} {a b : Graph} {t : GraphView} (h : Beside f a b t)

include h

/-- No node of the second graph is an image, if all images are nodes of the first one. -/
theorem notMem_images {m : List Nat} (hm : ∀ u ∈ m, u < a.nodeCount) {v : Nat}
    (hv : v < b.nodeCount) : f (a.nodeCount + v) ∉ m.map f := by
  intro hmem
  obtain ⟨u, hu, heq⟩ := List.mem_map.mp hmem
  have hlt := hm u hu
  have := h.isIso.inj (Nat.lt_trans (Nat.lt_add_right v hlt) (a.add_lt_nodeCount_append hv))
    (a.add_lt_nodeCount_append hv) heq
  omega

/-- **A step on the first of two graphs** makes of it what it would make of it alone. The second one
is left as it is, and its edges are read in the same order as before. -/
theorem exists_step {r : Rule} {m : List Nat} (hr : r.isConsistent = true)
    (ha : r.Applicable a.view m) (mode : Relabeling) :
    ∃ first g f', r.rework mode (r.imagesAt m some) (Arena.host a) = .ok first ∧
      r.rewrite ⟨false, mode⟩ t (m.map f) = .ok g ∧
      GraphView.IsIso f' (first.append b).view g.view ∧
      (∀ v < b.nodeCount,
        f' (first.nodeCount + v) = r.newNumber (m.map f) (f (a.nodeCount + v))) ∧
      (b.ReadIn (fun v => f (a.nodeCount + v)) t →
        b.ReadIn (fun v => f' (first.nodeCount + v)) g.view) := by
  have hboth := ha.append b
  obtain ⟨hplaced, choices, first, hchoices, hfirst⟩ := ha.exists_rework_host hr mode
  obtain ⟨-, -, both, -, hrework⟩ := hboth.exists_rework_host hr mode
  obtain ⟨f₁, hf₁, hbehind⟩ := hplaced.exists_isIso_append b hr hchoices hfirst hrework
  have hlt : ∀ u ∈ m, u < a.nodeCount := ha.occurrence.lt_nodeCount
  obtain ⟨g, f₂, hg, hf₂, hnumber⟩ := hboth.exists_isIso_rewrite hr h.isIso
    (fun u hu v hv => by
      rw [h.readIn u v (hlt u hu) (hlt v hv), Graph.labelsAmong_append_of_lt (hlt u hu)])
    hrework
  have hmap := hboth.map h.isIso
  have hmoved : ∀ v < b.nodeCount,
      f₂ (f₁ (first.nodeCount + v)) = r.newNumber (m.map f) (f (a.nodeCount + v)) := by
    intro v hv
    have hstays : r.deletes m (a.nodeCount + v) = false := by
      have := hplaced.stays_of_le (Nat.le_add_right a.nodeCount v)
      rw [Rule.stays_copy ha.occurrence] at this
      simpa using this
    rw [hbehind v hv, Rule.stays_copy ha.occurrence]
    exact hnumber _ (a.add_lt_nodeCount_append hv) hstays
  refine ⟨first, g, fun v => f₂ (f₁ v), hfirst, hg, hf₁.trans hf₂, hmoved,
    fun hread u v hu hv => ?_⟩
  have hnode : ∀ {v}, v < b.nodeCount → f (a.nodeCount + v) < t.nodeCount := fun hv =>
    h.isIso.lt (a.add_lt_nodeCount_append hv)
  simp only [hmoved u hu, hmoved v hv]
  rw [hmap.labelsAmong_rewrite hr hg (hnode hu) (hnode hv) (h.notMem_images hlt hu)
    (h.notMem_images hlt hv)]
  exact hread u v hu hv

/-- **A step on either of two graphs**: the steps succeed one after the other, and the result
consists of what each of them makes of its graph. -/
theorem exists_two_steps {r₁ r₂ : Rule} {m₁ m₂ : List Nat} (hr₁ : r₁.isConsistent = true)
    (hr₂ : r₂.isConsistent = true) (h₁ : r₁.Applicable a.view m₁) (h₂ : r₂.Applicable b.view m₂)
    (hread : b.ReadIn (fun v => f (a.nodeCount + v)) t) (mode : Relabeling) :
    ∃ first second g g', r₁.rework mode (r₁.imagesAt m₁ some) (Arena.host a) = .ok first ∧
      r₂.rework mode (r₂.imagesAt m₂ some) (Arena.host b) = .ok second ∧
      r₁.rewrite ⟨false, mode⟩ t (m₁.map f) = .ok g ∧
      r₂.rewrite ⟨false, mode⟩ g.view
        ((m₂.map fun v => f (a.nodeCount + v)).map (r₁.renumber (m₁.map f))) = .ok g' ∧
      (second.append first).Isomorphic g' := by
  obtain ⟨first, g, f₁, hfirst, hg, hf₁, hmoved, hread'⟩ := h.exists_step hr₁ h₁ mode
  -- The second graph comes first now.
  have hbeside :
      Beside (fun v => f₁ (Graph.crossed first.nodeCount b.nodeCount v)) b first g.view :=
    { isIso := (Graph.isIso_append_comm first b).trans hf₁
      readIn := (hread' hread).crossed }
  obtain ⟨second, g', f₂, hsecond, hg', hf₂, -⟩ := hbeside.exists_step hr₂ h₂ mode
  refine ⟨first, second, g, g', hfirst, hsecond, hg, ?_, f₂, hf₂⟩
  have hmapping : (m₂.map fun v => f (a.nodeCount + v)).map (r₁.renumber (m₁.map f)) =
      m₂.map fun v => f₁ (Graph.crossed first.nodeCount b.nodeCount v) := by
    rw [List.map_map]
    refine List.map_congr_left fun v hv => ?_
    have hlt : v < b.nodeCount := h₂.occurrence.lt_nodeCount v hv
    rw [Graph.crossed_of_lt hlt, hmoved v hlt, Function.comp_apply, Rule.renumber_eq_newNumber]
  rw [hmapping]
  exact hg'

/-- The graphs may change places. -/
theorem symm (hread : b.ReadIn (fun v => f (a.nodeCount + v)) t) :
    Beside (fun v => f (Graph.crossed a.nodeCount b.nodeCount v)) b a t where
  isIso := (Graph.isIso_append_comm a b).trans h.isIso
  readIn := hread.crossed

end Beside

/-! ### Steps on different components -/

/-- The nodes of a part of a graph and the other nodes, side by side, are the graph, if linked nodes
are on the same side. Edges are read in the same order on both sides. -/
theorem exists_beside_parts (t : GraphView) {keep : Nat → Bool}
    (h : ∀ {u v : Nat}, t.Linked u v → keep u = keep v) :
    ∃ f, Beside f (t.part keep) (t.part fun u => !keep u) t ∧
      (t.part fun u => !keep u).ReadIn (fun v => f ((t.part keep).nodeCount + v)) t ∧
      (∀ u < t.nodeCount, keep u = true → f (rank keep u) = u) ∧
      ∀ u < t.nodeCount, keep u = false →
        f ((t.part keep).nodeCount + rank (fun u => !keep u) u) = u := by
  obtain ⟨f, hf, hfirst, hsecond⟩ := t.exists_isIso_parts h
  refine ⟨f, ⟨hf, GraphView.readIn_part hfirst⟩, GraphView.readIn_part fun u hu hkeep => ?_, hfirst,
    hsecond⟩
  exact hsecond u hu (by simpa using hkeep)

/-- **Independent steps commute.** Matches of the left sides of two consistent rules are given, and
no node of the one is linked with a node of the other. In either order both steps succeed, the
second one at its match after the nodes that the first one deletes are gone, and the results are
isomorphic. -/
theorem applyRule_comm {r₁ r₂ : Rule} {mode : Relabeling} {t : GraphView} {m₁ m₂ : List Nat}
    (hr₁ : r₁.isConsistent = true) (hr₂ : r₂.isConsistent = true) (hmode : mode.validate = .ok ())
    (hm₁ : r₁.leftPattern.IsMatch t m₁) (hm₂ : r₂.leftPattern.IsMatch t m₂)
    (hapart : ∀ u ∈ m₁, ∀ v ∈ m₂, ¬t.Linked u v) :
    ∃ g₁ g₁₂ g₂ g₂₁, applyRule r₁ ⟨false, mode⟩ t m₁ = .ok g₁ ∧
      applyRule r₂ ⟨false, mode⟩ g₁.view (m₂.map (r₁.renumber m₁)) = .ok g₁₂ ∧
      applyRule r₂ ⟨false, mode⟩ t m₂ = .ok g₂ ∧
      applyRule r₁ ⟨false, mode⟩ g₂.view (m₁.map (r₂.renumber m₂)) = .ok g₂₁ ∧
      g₁₂.Isomorphic g₂₁ := by
  -- The components with images of the first rule, and all others.
  let keep : Nat → Bool := fun u => m₁.any fun w => decide (t.Linked w u)
  have hkeep : ∀ {u v}, t.Linked u v → keep u = keep v := by
    intro u v huv
    refine List.any_congr rfl fun w => decide_eq_decide.mpr ?_
    exact ⟨fun h => h.trans huv, fun h => h.trans huv.symm⟩
  have hkeep₁ : ∀ u ∈ m₁, keep u = true := fun u hu =>
    List.any_eq_true.mpr ⟨u, hu, decide_eq_true (GraphView.Linked.refl t u)⟩
  have hkeep₂ : ∀ v ∈ m₂, keep v = false := fun v hv =>
    List.any_eq_false.mpr fun u hu => by simpa using hapart u hu v hv
  have h₁ := (Rule.applicable_of_isMatch hr₁ hm₁).part hkeep₁
  have h₂ : r₂.Applicable (t.part fun u => !keep u).view (m₂.map (rank fun u => !keep u)) :=
    (Rule.applicable_of_isMatch hr₂ hm₂).part fun v hv => congrArg not (hkeep₂ v hv)
  obtain ⟨f, hbeside, hread, hfirst, hsecond⟩ := exists_beside_parts t hkeep
  have hback₁ : (m₁.map (rank keep)).map f = m₁ := by
    rw [List.map_map]
    exact (List.map_congr_left fun u hu =>
      hfirst u (hm₁.lt_nodeCount u hu) (hkeep₁ u hu)).trans (List.map_id _)
  have hback₂ :
      (m₂.map (rank fun u => !keep u)).map (fun v => f ((t.part keep).nodeCount + v)) = m₂ := by
    rw [List.map_map]
    exact (List.map_congr_left fun v hv =>
      hsecond v (hm₂.lt_nodeCount v hv) (hkeep₂ v hv)).trans (List.map_id _)
  have hcrossed : (m₂.map (rank fun u => !keep u)).map (fun v =>
      f (Graph.crossed (t.part keep).nodeCount (t.part fun u => !keep u).nodeCount v)) = m₂ := by
    refine (List.map_congr_left fun v hv => ?_).trans hback₂
    have hlt : v < (t.part fun u => !keep u).nodeCount := h₂.occurrence.lt_nodeCount v hv
    rw [Graph.crossed_of_lt hlt]
  obtain ⟨first, second, g₁, g₁₂, hone, htwo, hg₁, hg₁₂, hiso⟩ :=
    hbeside.exists_two_steps hr₁ hr₂ h₁ h₂ hread mode
  obtain ⟨second', first', g₂, g₂₁, htwo', hone', hg₂, hg₂₁, hiso'⟩ :=
    (hbeside.symm hread).exists_two_steps hr₂ hr₁ h₂ h₁
      (by
        simp only [Graph.crossed_add]
        exact hbeside.readIn) mode
  obtain rfl : first = first' := Except.ok.inj (hone.symm.trans hone')
  obtain rfl : second = second' := Except.ok.inj (htwo.symm.trans htwo')
  simp only [Graph.crossed_add] at hg₂₁
  rw [hback₁] at hg₁ hg₁₂
  rw [hback₂] at hg₁₂
  rw [hcrossed] at hg₂ hg₂₁
  rw [hback₁] at hg₂₁
  refine ⟨g₁, g₁₂, g₂, g₂₁, applyRule_eq_ok_iff.mpr ⟨hr₁, hmode, hg₁⟩,
    applyRule_eq_ok_iff.mpr ⟨hr₂, hmode, hg₁₂⟩, applyRule_eq_ok_iff.mpr ⟨hr₂, hmode, hg₂⟩,
    applyRule_eq_ok_iff.mpr ⟨hr₁, hmode, hg₂₁⟩, ?_⟩
  exact (hiso.symm.trans ⟨_, Graph.isIso_append_comm first second⟩).trans hiso'

/-- The rule that puts a new node in the place of a node `N`. -/
def Rule.exchange : Rule where
  id := some "exchange"
  nodes := [⟨.leftOnly, "N", none⟩, ⟨.rightOnly, "M", none⟩]
  edges := []
  constraints := []
  directives := [⟨0, 1, none, none⟩]
  wildcard := none

/-- A node `N` that is joined twice to a node `C` and once to a node `X`, and apart from these a
pair with a node `N`. The numbers of both components alternate. -/
def Graph.hubAndPair : Graph where
  labels := ["N", "N", "C", "Y", "X"]
  edges := [⟨2, 0, "near"⟩, ⟨1, 3, "="⟩, ⟨0, 2, "far"⟩, ⟨4, 0, "far"⟩]
  endpoints_lt := by decide

/-- The node that comes after the deleted one has another number when it is exchanged second, and so
have the images at the hub when they are rewritten second. -/
theorem applyRule_comm_hubAndPair :
    [1].map (Rule.relocation.renumber [0, 2]) = [0] ∧
    [0, 2].map (Rule.exchange.renumber [1]) = [0, 1] ∧
    ∃ g₁ g₁₂ g₂ g₂₁,
      applyRule .relocation ⟨false, .replace⟩ Graph.hubAndPair.view [0, 2] = .ok g₁ ∧
      applyRule .exchange ⟨false, .replace⟩ g₁.view [0] = .ok g₁₂ ∧
      applyRule .exchange ⟨false, .replace⟩ Graph.hubAndPair.view [1] = .ok g₂ ∧
      applyRule .relocation ⟨false, .replace⟩ g₂.view [0, 1] = .ok g₂₁ ∧
      g₁₂.Isomorphic g₂₁ := by
  have hmatch : ∀ {r : Rule} {m : List Nat},
      m ∈ r.leftPattern.occurrences none Graph.hubAndPair.view →
      r.leftPattern.IsMatch Graph.hubAndPair.view m := fun {r _} =>
    (Pattern.mem_occurrences_iff r.inRange_leftPattern).mp
  have hm₁ : Rule.relocation.leftPattern.IsMatch Graph.hubAndPair.view [0, 2] :=
    hmatch (by decide +kernel)
  have hm₂ : Rule.exchange.leftPattern.IsMatch Graph.hubAndPair.view [1] :=
    hmatch (by decide +kernel)
  have hapart : ∀ u ∈ [0, 2], ∀ v ∈ [1], ¬Graph.hubAndPair.view.Linked u v := by decide +kernel
  have hone : [1].map (Rule.relocation.renumber [0, 2]) = [0] := by decide +kernel
  have htwo : [0, 2].map (Rule.exchange.renumber [1]) = [0, 1] := by decide +kernel
  have happly := applyRule_comm (by decide +kernel) (by decide +kernel)
    (rfl : Relabeling.replace.validate = .ok ()) hm₁ hm₂ hapart
  rw [hone, htwo] at happly
  exact ⟨hone, htwo, happly⟩

end GraphGrammar
