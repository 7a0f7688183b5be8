import Mathlib.Data.Fintype.Pi
import Mathlib.Data.List.FinRange
import GraphGrammar.Proofs.Rewrite.Copies
import GraphGrammar.Proofs.Rewrite.Occurrence

/-!
# The meaning of a step

What a step makes of a target is said in terms of the target, the rule and the mapping alone. The
nodes that are not images of left-only nodes stay, in their order, and right-only nodes follow. Of
the edges, every edge of the left side is assigned one of its own; those of left-only edges and
those around removed nodes go, the right-only edges come, and an edge that lost one endpoint is
drawn again for every directive that admits it.

## Main definitions

* `GraphGrammar.Rule.deletes`, `survivors`, `newNumber`, `resultNode` — which nodes stay, and the
  numbers of the nodes in the result.
* `GraphGrammar.Rule.Assigns` — edges of the target for the edges of the left side.
* `GraphGrammar.Rule.redrawn` — the copies of an edge that lost one endpoint.

## Main results

* `GraphGrammar.applyRule_meaning` — the result of a step.
-/

namespace GraphGrammar

namespace Rule

variable {r : Rule} {t : GraphView} {mapping : List Nat}

/-! ### Nodes -/

/-- Whether a node of the target is the image of a left-only node. -/
def deletes (r : Rule) (mapping : List Nat) (u : Nat) : Bool :=
  (List.range r.nodes.length).any fun v =>
    r.roleOf v == some .leftOnly && r.imageOf mapping v == some u

/-- The nodes of the target that stay, in ascending order. -/
def survivors (r : Rule) (t : GraphView) (mapping : List Nat) : List Nat :=
  (List.range t.nodeCount).filter fun u => !r.deletes mapping u

/-- The number in the result of a node of the target that stays: how many smaller ones stay. -/
def newNumber (r : Rule) (mapping : List Nat) (u : Nat) : Nat :=
  rank (fun u => !r.deletes mapping u) u

/-- The number in the result of a rule node on the right side. -/
def resultNode (r : Rule) (t : GraphView) (mapping : List Nat) (v : Nat) : Nat :=
  if r.isRightOnly v then (r.survivors t mapping).length + rank r.isRightOnly v
  else r.newNumber mapping ((r.imageOf mapping v).getD 0)

/-- The rule node on both sides whose image is a node of the target, if there is one. -/
def survivorAt (r : Rule) (mapping : List Nat) (u : Nat) : Option Nat :=
  (List.range r.nodes.length).find? fun v =>
    (r.roleOf v).any (·.survives) && r.imageOf mapping v == some u

/-! ### Edges -/

/-- An assignment of edges of the target to the edges of the left side: no edge twice, and each
between the images of the endpoints and with a label that is admitted. -/
structure Assigns (r : Rule) (t : GraphView) (mapping : List Nat)
    (assigned : Fin r.leftEdges.length → Fin t.edgeList.length) : Prop where
  /-- No edge is assigned twice. -/
  injective : Function.Injective assigned
  /-- The edge joins the images of the endpoints. -/
  joins : ∀ i, ∃ a b, r.imageOf mapping r.leftEdges[i].source = some a ∧
    r.imageOf mapping r.leftEdges[i].target = some b ∧
    t.edgeList[assigned i].connects a b = true
  /-- The label is the same, or the edge of the rule carries the wildcard. -/
  fits : ∀ i, labelFits r.wildcard r.leftEdges[i].label t.edgeList[assigned i].label = true

/-- The edges of the target that are not assigned to a left-only edge. -/
def spared (r : Rule) (t : GraphView)
    (assigned : Fin r.leftEdges.length → Fin t.edgeList.length) : List Edge :=
  ((List.finRange t.edgeList.length).filter fun j =>
    ∀ i, r.leftEdges[i].role = .leftOnly → assigned i ≠ j).map fun j => t.edgeList[j]

/-- The copies of an edge that loses the endpoint `gone` and keeps the endpoint `kept`, one for each
directive of the node with the image `gone` that admits the edge. -/
def redrawnAt (r : Rule) (t : GraphView) (mapping : List Nat) (gone kept : Nat) (label : String) :
    List Bond :=
  (r.directives.filter fun d => r.imageOf mapping d.source == some gone &&
    d.admits (r.survivorAt mapping kept) label).map
    fun d => (s(r.resultNode t mapping d.pasteTarget, r.newNumber mapping kept), label)

/-- The copies of an edge of the target, if it loses exactly one endpoint. -/
def redrawn (r : Rule) (t : GraphView) (mapping : List Nat) (e : Edge) :
    List Bond :=
  match r.deletes mapping e.source, r.deletes mapping e.target with
  | true, false => r.redrawnAt t mapping e.source e.target e.label
  | false, true => r.redrawnAt t mapping e.target e.source e.label
  | _, _ => []

/-- What a graph is that results from a step: `assigned` says which edges of the target were
assigned to the edges of the left side, and `label` what the nodes that stay are labelled. -/
structure Yields (r : Rule) (mode : Relabeling) (t : GraphView) (mapping : List Nat)
    (assigned : Fin r.leftEdges.length → Fin t.edgeList.length) (label : Nat → String)
    (g : Graph) : Prop where
  /-- The edges of the left side were assigned edges of the target. -/
  assigns : r.Assigns t mapping assigned
  /-- The image of a label change is relabelled. -/
  label_of_change : ∀ {v u right}, r.roleOf v = some .labelChange →
    (r.nodes[v]?).bind (·.rightLabel?) = some right → r.imageOf mapping v = some u →
    label u = mode.relabel (t.label u) right
  /-- All other nodes keep their labels. -/
  label_of_other : ∀ {u}, (∀ v, r.roleOf v = some .labelChange → r.imageOf mapping v ≠ some u) →
    label u = t.label u
  /-- The nodes are those that stay, and then the right-only nodes. -/
  labels_eq : g.labels = (r.survivors t mapping).map label ++ r.newLabels
  /-- The edges are those between nodes that stay which were not assigned to a left-only edge, the
  right-only edges, and the copies of edges that lost one endpoint. -/
  edges_perm : (g.edges.map Edge.bond).Perm
    (((r.spared t assigned).filter fun e =>
        !r.deletes mapping e.source && !r.deletes mapping e.target).map
        (fun e => (e.mapNodes (r.newNumber mapping)).bond) ++
      ((r.edges.filter fun e => e.role = .rightOnly).map fun e =>
        (s(r.resultNode t mapping e.source, r.resultNode t mapping e.target), e.label)) ++
      (r.spared t assigned).flatMap (r.redrawn t mapping))

/-! ### The slots of a copy of the whole target -/

theorem slot?_copy (r : Rule) (mapping : List Nat) (v : Nat) :
    (r.imagesAt mapping some).slot? v = r.imageOf mapping v := by
  rw [slot?_imagesAt, Option.bind_fun_some]

theorem slot_copy {v u : Nat} (h : r.imageOf mapping v = some u) :
    (r.imagesAt mapping some).slot v = u := by
  rw [Images.slot, slot?_copy, h]
  rfl

theorem deletes_eq_true_iff {u : Nat} : r.deletes mapping u = true ↔
    ∃ v, r.roleOf v = some .leftOnly ∧ r.imageOf mapping v = some u := by
  simp only [deletes, List.any_eq_true, List.mem_range, Bool.and_eq_true, beq_iff_eq]
  constructor
  · rintro ⟨v, -, hrole, himage⟩
    exact ⟨v, hrole, himage⟩
  · rintro ⟨v, hrole, himage⟩
    exact ⟨v, roleOf_lt hrole, hrole, himage⟩

theorem stays_copy (h : r.Occurrence t mapping) :
    r.stays (r.imagesAt mapping some) = fun u => !r.deletes mapping u := by
  funext u
  rw [Bool.eq_iff_iff, stays_eq_true_iff, Bool.not_eq_true', ← Bool.not_eq_true,
    deletes_eq_true_iff]
  constructor
  · rintro hall ⟨v, hrole, himage⟩
    exact hall v hrole (slot_copy himage)
  · intro hnone v hrole hslot
    obtain ⟨w, -, himage⟩ := h.exists_imageOf hrole rfl
    exact hnone ⟨v, hrole, by rw [himage, ← slot_copy himage, hslot]⟩

theorem length_survivors (r : Rule) (t : GraphView) (mapping : List Nat) :
    (r.survivors t mapping).length = r.newNumber mapping t.nodeCount := length_filter_range _ _

/-- Behind the nodes of the target every number stays. -/
theorem newNumber_add (h : r.Occurrence t mapping) (k : Nat) :
    r.newNumber mapping (t.nodeCount + k) = (r.survivors t mapping).length + k := by
  rw [length_survivors]
  refine rank_add_of_forall (fun u hu => ?_) k
  rw [← congrFun (stays_copy h)]
  exact h.placed.stays_of_le hu

/-- A node of the right side is in the result where its slot is numbered. -/
theorem newNumber_finalImage (h : r.Occurrence t mapping) {v : Nat} {role : NodeRole}
    (hv : r.roleOf v = some role) (hrole : role.onRight = true) :
    r.newNumber mapping ((r.finalImage (r.imagesAt mapping some) t.toGraph).slot v) =
      r.resultNode t mapping v := by
  by_cases hnew : role = .rightOnly
  · subst hnew
    have hright : r.isRightOnly v = true := by
      rw [isRightOnly, hv]
      rfl
    rw [resultNode, if_pos hright, Images.slot, (slot?_finalImage_of_rightOnly _ _ hv).1,
      t.nodeCount_toGraph,
      Option.getD_some, newNumber_add h]
  · have hsurvives : role.survives = true := by
      cases role <;> first | rfl | exact absurd rfl hnew | exact absurd hrole Bool.false_ne_true
    have hright : ¬r.isRightOnly v = true := by
      rw [isRightOnly, hv]
      simpa using hnew
    rw [resultNode, if_neg hright, Images.slot, slot?_finalImage_of_survives hv hsurvives,
      slot?_copy]

theorem ruleNodeAt_copy (r : Rule) (mapping : List Nat) (u : Nat) :
    r.ruleNodeAt (r.imagesAt mapping some) u = r.survivorAt mapping u := by
  rw [ruleNodeAt, survivorAt]
  congr 1
  funext v
  rw [← Images.slot?, slot?_copy]

/-! ### The edges that are assigned -/

/-- What is given to an edge of the left side joins the images of its endpoints. -/
theorem exists_edge_of_mem_choices (hr : r.isConsistent = true) (h : r.Occurrence t mapping)
    {choices : List (RuleEdge × Nat)}
    (hchoices : r.choices (r.imagesAt mapping some) (t.edgeList.map some) = some choices)
    {e : RuleEdge} {j : Nat} (hmem : (e, j) ∈ choices) : ∃ hj : j < t.edgeList.length,
      (∃ u v, r.imageOf mapping e.source = some u ∧ r.imageOf mapping e.target = some v ∧
        t.edgeList[j].connects u v = true) ∧
      labelFits r.wildcard e.label t.edgeList[j].label = true := by
  obtain ⟨hslot, hfits⟩ := choices_spec hchoices hmem
  obtain ⟨found, hfound, hconnects⟩ := mem_slotsWhere.mp hslot
  rw [fitsSlot, hfound, Option.any_some] at hfits
  rw [Arena.join_getElem?_map_some] at hfound
  obtain ⟨hj, rfl⟩ := List.getElem?_eq_some_iff.mp hfound
  have he : e ∈ r.leftEdges :=
    (map_fst_choices_perm hchoices).mem_iff.mp (List.mem_map_of_mem hmem)
  obtain ⟨⟨hs, -⟩, ht, -⟩ := h.placed.slot?_of_mem_leftEdges hr he
  rw [slot?_copy] at hs ht
  refine ⟨hj, ⟨_, _, hs, ht, ?_⟩, hfits⟩
  simp only [pairOf, Edge.connects, Bool.or_eq_true, Bool.and_eq_true, beq_iff_eq] at hconnects ⊢
  omega

/-- What was given to the edges of the left side is an assignment. -/
theorem exists_assigns (hr : r.isConsistent = true) (h : r.Occurrence t mapping)
    {choices : List (RuleEdge × Nat)}
    (hchoices : r.choices (r.imagesAt mapping some) (t.edgeList.map some) = some choices) :
    ∃ assigned, r.Assigns t mapping assigned ∧ ∀ j : Fin t.edgeList.length,
      (∀ i, r.leftEdges[i].role = .leftOnly → assigned i ≠ j) ↔ j.val ∉ removedBy choices := by
  -- The choices in the order of the edges of the left side.
  obtain ⟨aligned, hperm, haligned⟩ := exists_perm_map_eq (map_fst_choices_perm hchoices)
  have hlen : aligned.length = r.leftEdges.length := by rw [← haligned, List.length_map]
  have hfst : ∀ i : Fin r.leftEdges.length, aligned[i].1 = r.leftEdges[i] := by
    intro i
    have hget := List.getElem_of_eq haligned (i := i) (by simp [hlen])
    simpa using hget
  have hmem : ∀ i : Fin r.leftEdges.length, (r.leftEdges[i], aligned[i].2) ∈ choices := by
    intro i
    rw [← hfst]
    exact hperm.mem_iff.mp (List.getElem_mem _)
  have hspec := fun i => exists_edge_of_mem_choices hr h hchoices (hmem i)
  refine ⟨fun i => ⟨aligned[i].2, (hspec i).1⟩,
    ⟨fun i i' heq => ?_, fun i => (hspec i).2.1, fun i => (hspec i).2.2⟩, fun j => ?_⟩
  · have hnodup : (aligned.map Prod.snd).Nodup :=
      (hperm.map Prod.snd).nodup_iff.mpr (nodup_map_snd_choices hchoices)
    have hlength : (aligned.map Prod.snd).length = r.leftEdges.length := by
      rw [List.length_map, hlen]
    have hsnd : (aligned.map Prod.snd).get ⟨i, hlength.symm ▸ i.isLt⟩ =
        (aligned.map Prod.snd).get ⟨i', hlength.symm ▸ i'.isLt⟩ := by
      simpa using congrArg Fin.val heq
    exact Fin.ext (hnodup.getElem_inj_iff.mp hsnd)
  · rw [mem_removedBy]
    constructor
    · rintro hall ⟨e, he, hrole⟩
      obtain ⟨k, hk⟩ := List.mem_iff_getElem?.mp (hperm.mem_iff.mpr he)
      obtain ⟨hklt, hk⟩ := List.getElem?_eq_some_iff.mp hk
      have hk' : k < r.leftEdges.length := hlen ▸ hklt
      have hedge : r.leftEdges[k] = e := by
        have := hfst ⟨k, hk'⟩
        simp only [Fin.getElem_fin, hk] at this
        exact this.symm
      refine hall ⟨k, hk'⟩ (by simpa [hedge] using hrole) (Fin.ext ?_)
      simp [hk]
    · intro hnone i hrole heq
      refine hnone ⟨r.leftEdges[i], ?_, hrole⟩
      rw [← heq]
      exact hmem i

/-! ### The edges that are drawn again -/

theorem map_copiesAt_copy (hr : r.isConsistent = true) (h : r.Occurrence t mapping)
    (gone kept : Nat)
    (label : String) :
    (r.copiesAt (r.imagesAt mapping some) t.toGraph gone kept label).map
        (Bond.map (r.newNumber mapping)) = r.redrawnAt t mapping gone kept label := by
  rw [copiesAt, redrawnAt, List.map_map, ruleNodeAt_copy]
  simp only [slot?_copy]
  refine List.map_congr_left fun d hd => ?_
  obtain ⟨role, hv, hrole⟩ := directive_target_of_isConsistent hr (List.mem_of_mem_filter hd)
  rw [Function.comp_apply, Bond.map_mk, newNumber_finalImage h hv hrole]

theorem map_slotCopies_copy (hr : r.isConsistent = true) (h : r.Occurrence t mapping) (e : Edge) :
    (r.slotCopies (r.imagesAt mapping some) t.toGraph e).map (Bond.map (r.newNumber mapping)) =
      r.redrawn t mapping e := by
  have hstays := stays_copy h
  rw [slotCopies, redrawn, congrFun hstays e.source, congrFun hstays e.target]
  cases r.deletes mapping e.source <;> cases r.deletes mapping e.target
  · rfl
  · exact map_copiesAt_copy hr h e.target e.source e.label
  · exact map_copiesAt_copy hr h e.source e.target e.label
  · rfl

/-! ### The step -/

/-- The labels of the nodes that stay, after the label changes. -/
theorem resultLabels_copy (h : r.Occurrence t mapping) (mode : Relabeling) :
    r.resultLabels mode (r.imagesAt mapping some) t.toGraph =
      (r.survivors t mapping).map
        (fun u => r.labelAt mode (r.imagesAt mapping some) u (t.label u)) ++ r.newLabels := by
  rw [resultLabels, survivors, stays_copy h, t.nodeCount_toGraph]
  refine congrArg (· ++ r.newLabels) (List.map_congr_left fun u hu => ?_)
  have hlt := List.mem_range.mp (List.mem_of_mem_filter hu)
  rw [GraphView.toGraph, List.getD_eq_getElem?_getD, List.getElem?_map, List.getElem?_range hlt]
  rfl

/-- The edges of the result, without direction. -/
theorem resultEdges_copy (hr : r.isConsistent = true) (h : r.Occurrence t mapping)
    {choices : List (RuleEdge × Nat)} {assigned : Fin r.leftEdges.length → Fin t.edgeList.length}
    (hspared : untaken t.toGraph choices = r.spared t assigned) :
    ((r.resultEdges (r.imagesAt mapping some) t.toGraph choices).map
        fun e => (e.mapNodes (r.newNumber mapping)).bond).Perm
      (((r.spared t assigned).filter fun e =>
          !r.deletes mapping e.source && !r.deletes mapping e.target).map
          (fun e => (e.mapNodes (r.newNumber mapping)).bond) ++
        ((r.edges.filter fun e => e.role = .rightOnly).map fun e =>
          (s(r.resultNode t mapping e.source, r.resultNode t mapping e.target), e.label)) ++
        (r.spared t assigned).flatMap (r.redrawn t mapping)) := by
  have hnew : (r.newEdges (r.finalImage (r.imagesAt mapping some) t.toGraph)).map
      (fun e => (e.mapNodes (r.newNumber mapping)).bond) =
      (r.edges.filter fun e => e.role = .rightOnly).map fun e =>
        (s(r.resultNode t mapping e.source, r.resultNode t mapping e.target), e.label) := by
    rw [newEdges, List.map_map]
    refine List.map_congr_left fun e he => ?_
    obtain ⟨hmem, hrole⟩ := List.mem_filter.mp he
    obtain ⟨a, b, ha, hb, hjoin⟩ := exists_roles_of_isConsistent hr hmem
    rw [decide_eq_true_eq] at hrole
    rw [hrole, EdgeRole.mayJoin, Bool.and_eq_true] at hjoin
    rw [Function.comp_apply, Edge.bond, Edge.mapNodes, newNumber_finalImage h ha hjoin.1,
      newNumber_finalImage h hb hjoin.2]
  have hplaced : r.Placed (r.imagesAt mapping some) t.toGraph.nodeCount :=
    t.nodeCount_toGraph ▸ h.placed
  have hcopies : (((r.looseEdges (r.imagesAt mapping some) (r.spared t assigned)).flatMap
      (r.copies (r.finalImage (r.imagesAt mapping some) t.toGraph))).map
      fun e => (e.mapNodes (r.newNumber mapping)).bond).Perm
      ((r.spared t assigned).flatMap (r.redrawn t mapping)) := by
    have hbonds := (bonds_copies_looseEdges hplaced (r.spared t assigned)).map
      (Bond.map (r.newNumber mapping))
    rw [List.map_map] at hbonds
    refine hbonds.trans (List.Perm.of_eq ?_)
    rw [List.map_flatMap]
    exact List.flatMap_congr fun e _ => map_slotCopies_copy hr h e
  rw [resultEdges, hspared, List.map_append, List.map_append, hnew, stays_copy h]
  exact List.Perm.append_left _ hcopies

end Rule

/-- **The meaning of a step**: its result is what the rule, the target and the mapping say. -/
theorem applyRule_meaning {r : Rule} {config : RewriteConfig} {t : GraphView} {mapping : List Nat}
    {g : Graph} (hone : config.addEachComponent = false)
    (h : applyRule r config t mapping = .ok g) :
    ∃ assigned label, r.Yields config.relabeling t mapping assigned label g := by
  obtain ⟨hr, -, hrewrite⟩ := applyRule_eq_ok_iff.mp h
  obtain ⟨hcheck, hrework⟩ := Rule.rewrite_eq_ok_iff.mp hrewrite
  have hocc := Rule.checkOccurrence_eq_ok_iff.mp hcheck
  have hplaced : r.Placed (r.imagesAt mapping some) t.toGraph.nodeCount :=
    t.nodeCount_toGraph ▸ hocc.placed
  rw [Rule.copyTarget_of_whole hone] at hrework
  obtain ⟨hsome, hnone⟩ := Rule.rework_eq hr config.relabeling hplaced
  cases hchoices : r.choices (r.imagesAt mapping some) (t.toGraph.edges.map some) with
  | none =>
    obtain ⟨fault, hfault⟩ := hnone hchoices
    rw [hfault] at hrework
    cases hrework
  | some choices =>
    obtain ⟨g', hg', hlabels, hedges⟩ := hsome choices hchoices
    cases hg'.symm.trans hrework
    obtain ⟨assigned, hassigns, hremoved⟩ := Rule.exists_assigns hr hocc hchoices
    have hspared : Rule.untaken t.toGraph choices = r.spared t assigned := by
      rw [Rule.untaken_eq, Rule.spared]
      refine congrArg _ (List.filter_congr fun j _ => ?_)
      exact decide_eq_decide.mpr (hremoved j).symm
    refine ⟨assigned, fun u => r.labelAt config.relabeling (r.imagesAt mapping some) u (t.label u),
      hassigns, fun {v u right} hv hright himage => ?_, fun {u} hu => ?_, ?_, ?_⟩
    · obtain ⟨node, hnode, hrole⟩ := Option.map_eq_some_iff.mp hv
      rw [hnode, Option.bind_some, RuleNode.rightLabel?, hrole] at hright
      have hlabel : node.newLabel = some right := hright
      rw [Rule.labelAt_of_labelChange hplaced hnode hrole ((Rule.slot?_copy ..).trans himage),
        hlabel]
      rfl
    · refine Rule.labelAt_of_forall (fun v hv => ?_) (t.label u)
      rw [Rule.slot?_copy]
      exact hu v hv
    · rw [hlabels, Rule.resultLabels_copy hocc]
    · rw [hedges, List.map_map, Rule.stays_copy hocc]
      exact Rule.resultEdges_copy hr hocc hspared

/-- The rule that removes a node, joins a node that it relabels to a new one, and draws the edges of
the removed node again from both. -/
def Rule.relocation : Rule where
  id := some "relocation"
  nodes := [⟨.leftOnly, "N", none⟩, ⟨.labelChange, "C", some "D"⟩, ⟨.rightOnly, "R", none⟩]
  edges := [⟨0, 1, .leftOnly, "*"⟩, ⟨1, 2, .rightOnly, "new"⟩]
  constraints := []
  directives := [⟨0, 2, none, none⟩, ⟨0, 1, none, some (.ofList ["far"])⟩]
  wildcard := some "*"

/-- A node `N` that is joined twice to a node `C`, once to a node `X`, and to itself. -/
def Graph.hub : Graph where
  labels := ["X", "N", "C"]
  edges := [⟨0, 1, "far"⟩, ⟨1, 2, "near"⟩, ⟨2, 1, "far"⟩, ⟨1, 1, "loop"⟩]
  endpoints_lt := by decide

theorem applyRule_meaning_relocation : ∃ g,
    applyRule .relocation .default Graph.hub.view [1, 2] = .ok g ∧
      ∃ assigned label, Rule.relocation.Yields .replace Graph.hub.view [1, 2] assigned label g := by
  have happly : applyRule .relocation .default Graph.hub.view [1, 2] = .ok
      ⟨["X", "D", "R"], [⟨1, 2, "new"⟩, ⟨2, 0, "far"⟩, ⟨1, 0, "far"⟩, ⟨2, 1, "far"⟩, ⟨1, 1, "far"⟩],
        by decide⟩ := by decide +kernel
  exact ⟨_, happly, applyRule_meaning rfl happly⟩

end GraphGrammar
