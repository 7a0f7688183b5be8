import GraphGrammar.Proofs.Rewrite.Choices

/-!
# Changing labels

Every label change of a rule writes one label, that of its slot. As label changes have distinct
slots, the order in which they are made does not matter.

## Main definitions

* `GraphGrammar.Rule.labelAt` — the label that a slot gets.

## Main results

* `GraphGrammar.Rule.changeLabels_eq` — the phase.
* `GraphGrammar.Rule.labelAt_of_labelChange`, `labelAt_of_forall` — the label slot by slot.
-/

namespace GraphGrammar

namespace Rule

variable {r : Rule} {image : Images} {n : Nat} {mode : Relabeling}
  {labels : List (Option String)} {edges : List (Option Edge)}

/-- The label that a slot with the label `current` gets from some nodes of a rule. -/
def labelFrom (mode : Relabeling) (image : Images) (nodes : List (RuleNode × Nat)) (s : Nat)
    (current : String) : String :=
  match nodes.find? fun (n, v) => n.role == .labelChange && image.slot? v == some s with
  | some (n, _) => mode.relabel current (n.newLabel.getD "")
  | none => current

/-- The label that a slot with the label `current` gets. -/
def labelAt (r : Rule) (mode : Relabeling) (image : Images) (s : Nat) (current : String) : String :=
  labelFrom mode image r.nodes.zipIdx s current

/-- The slots of nodes with their labels changed. -/
def mapLabels (f : Nat → String → String) (labels : List (Option String)) : List (Option String) :=
  labels.mapIdx fun s => Option.map (f s)

theorem getElem?_mapLabels (f : Nat → String → String) (labels : List (Option String)) (s : Nat) :
    (mapLabels f labels)[s]? = (labels[s]?).map (Option.map (f s)) := by
  rw [mapLabels, List.getElem?_mapIdx]

theorem mapLabels_eq_self {f : Nat → String → String} (h : ∀ s label, f s label = label)
    (labels : List (Option String)) : mapLabels f labels = labels := by
  refine List.ext_getElem? fun s => ?_
  have hid : f s = fun label => label := funext (h s)
  rw [getElem?_mapLabels, hid]
  simp

theorem labelFrom_cons_of_eq {node : RuleNode} {v s : Nat} (nodes : List (RuleNode × Nat))
    (hrole : node.role = .labelChange) (hslot : image.slot? v = some s) (current : String) :
    labelFrom mode image ((node, v) :: nodes) s current =
      mode.relabel current (node.newLabel.getD "") := by
  rw [labelFrom, List.find?_cons_of_pos (by simp [hrole, hslot])]

theorem labelFrom_cons_of_ne {node : RuleNode} {v s : Nat} (nodes : List (RuleNode × Nat))
    (h : ¬(node.role = .labelChange ∧ image.slot? v = some s)) (current : String) :
    labelFrom mode image ((node, v) :: nodes) s current = labelFrom mode image nodes s current := by
  rw [labelFrom, labelFrom, List.find?_cons_of_neg (by simpa using h)]

theorem labelFrom_of_forall {nodes : List (RuleNode × Nat)} {s : Nat}
    (h : ∀ node v, (node, v) ∈ nodes → node.role = .labelChange → image.slot? v ≠ some s)
    (current : String) : labelFrom mode image nodes s current = current := by
  have hfind : (nodes.find? fun (n, v) =>
      n.role == .labelChange && image.slot? v == some s) = none := by
    refine List.find?_eq_none.mpr fun ⟨node, v⟩ hmem hfound => ?_
    simp only [Bool.and_eq_true, beq_iff_eq] at hfound
    exact h node v hmem hfound.1 hfound.2
  rw [labelFrom, hfind]

/-! ### The phase -/

theorem changeLabel_eq {node : RuleNode} {v : Nat} (hslot : node.role = .labelChange →
      ∃ s old label, image.slot? v = some s ∧ (labels[s]?).join = some old ∧
        node.newLabel = some label) :
    r.changeLabel mode image (Arena.ofSlots labels edges) v node =
      .ok (Arena.ofSlots (mapLabels (labelFrom mode image [(node, v)]) labels) edges) := by
  by_cases hrole : node.role = .labelChange
  · obtain ⟨s, old, label, hs, hold, hlabel⟩ := hslot hrole
    have hright : node.rightLabel? = some label := by rw [RuleNode.rightLabel?, hrole, hlabel]
    have hlabels : mapLabels (labelFrom mode image [(node, v)]) labels =
        labels.set s (some (mode.relabel old label)) := by
      refine List.ext_getElem? fun t => ?_
      rw [getElem?_mapLabels, List.getElem?_set]
      by_cases hst : s = t
      · subst hst
        have hget := Option.join_eq_some_iff.mp hold
        rw [if_pos rfl, if_pos (List.getElem?_eq_some_iff.mp hget).1, hget]
        simp [labelFrom_cons_of_eq [] hrole hs, hlabel]
      · have hne : ¬(node.role = .labelChange ∧ image.slot? v = some t) := fun h =>
          hst (Option.some.inj (hs.symm.trans h.2))
        have hid : labelFrom mode image [(node, v)] t = fun label => label := funext fun label =>
          labelFrom_cons_of_ne [] hne label
        rw [if_neg hst, hid]
        simp
    rw [changeLabel, hrole, hlabels]
    simp only [hright, imageSlot_eq hs, Arena.label_ofSlots hold, bind, Except.bind]
    exact Arena.setLabel_ofSlots hold _
  · rw [mapLabels_eq_self]
    · rw [changeLabel]
      split
      · next h => exact absurd h hrole
      · rfl
    · exact fun s label => labelFrom_of_forall (fun node' v' hmem hrole' => by
        cases List.mem_singleton.mp hmem
        exact absurd hrole' hrole) label

theorem foldlM_changeLabel_eq {nodes : List (RuleNode × Nat)}
    (hnodup : (nodes.map Prod.snd).Nodup)
    (hinj : ∀ {u v s : Nat}, image.slot? u = some s → image.slot? v = some s → u = v)
    (hslot : ∀ node v, (node, v) ∈ nodes → node.role = .labelChange →
      ∃ s old label, image.slot? v = some s ∧ (labels[s]?).join = some old ∧
        node.newLabel = some label) :
    nodes.foldlM (fun host (node, v) => r.changeLabel mode image host v node)
        (Arena.ofSlots labels edges) =
      .ok (Arena.ofSlots (mapLabels (labelFrom mode image nodes) labels) edges) := by
  induction nodes generalizing labels with
  | nil =>
    rw [mapLabels_eq_self (f := labelFrom mode image []) fun _ _ => rfl]
    rfl
  | cons first nodes ih =>
    obtain ⟨node, v⟩ := first
    obtain ⟨hv, hnodup⟩ := List.nodup_cons.mp hnodup
    rw [List.foldlM_cons]
    dsimp only
    rw [changeLabel_eq (hslot node v (List.mem_cons_self ..))]
    refine (ih hnodup fun node' v' hmem hrole => ?_).trans ?_
    · obtain ⟨s, old, label, hs, hold, hlabel⟩ :=
        hslot node' v' (List.mem_cons_of_mem _ hmem) hrole
      refine ⟨s, labelFrom mode image [(node, v)] s old, label, hs, ?_, hlabel⟩
      rw [getElem?_mapLabels, Option.join_eq_some_iff.mp hold]
      rfl
    · refine congrArg (fun labels => Except.ok (Arena.ofSlots labels edges)) ?_
      refine List.ext_getElem? fun s => ?_
      rw [getElem?_mapLabels, getElem?_mapLabels, getElem?_mapLabels, Option.map_map]
      refine congrArg (Option.map · _) (funext fun label => ?_)
      rw [Function.comp_apply, Option.map_map]
      refine congrArg (Option.map · label) (funext fun current => ?_)
      rw [Function.comp_apply]
      by_cases hhit : node.role = .labelChange ∧ image.slot? v = some s
      · rw [labelFrom_cons_of_eq [] hhit.1 hhit.2, labelFrom_cons_of_eq nodes hhit.1 hhit.2]
        refine labelFrom_of_forall (fun node' v' hmem _ hs => hv ?_) _
        have hmem' : v' ∈ nodes.map Prod.snd := List.mem_map_of_mem hmem
        exact hinj hhit.2 hs ▸ hmem'
      · rw [labelFrom_cons_of_ne [] hhit, labelFrom_cons_of_ne nodes hhit]
        rfl

/-- **Changing the labels** of the images of all label changes. -/
theorem changeLabels_eq (hr : r.isConsistent = true) (h : r.Placed image n)
    (halive : ∀ s < n, ∃ label, (labels[s]?).join = some label) (mode : Relabeling)
    (edges : List (Option Edge)) :
    r.changeLabels mode image (Arena.ofSlots labels edges) =
      .ok (Arena.ofSlots (mapLabels (r.labelAt mode image) labels) edges) := by
  refine foldlM_changeLabel_eq ?_ h.inj ?_
  · rw [List.zipIdx_map_snd]
    exact List.nodup_range'
  · intro node v hmem hrole
    rw [List.mem_zipIdx_iff_getElem?] at hmem
    have hv : r.roleOf v = some .labelChange := by
      rw [roleOf, hmem, Option.map_some, hrole]
    obtain ⟨s, hs, hslot⟩ := h.exists_slot hv rfl
    obtain ⟨old, hold⟩ := halive s hs
    obtain ⟨label, hlabel⟩ := exists_newLabel_of_isConsistent hr (List.mem_of_getElem? hmem) hrole
    exact ⟨s, old, label, hslot, hold, hlabel⟩

/-- The slot of a label change. -/
theorem labelAt_of_labelChange (h : r.Placed image n) {v s : Nat} {node : RuleNode}
    (hnode : r.nodes[v]? = some node) (hrole : node.role = .labelChange)
    (hslot : image.slot? v = some s) (current : String) :
    r.labelAt mode image s current = mode.relabel current (node.newLabel.getD "") := by
  have hmem : (node, v) ∈ r.nodes.zipIdx := List.mem_zipIdx_iff_getElem?.mpr hnode
  rw [labelAt, labelFrom]
  cases hfind : r.nodes.zipIdx.find? fun (n, v) =>
      n.role == .labelChange && image.slot? v == some s with
  | none =>
    have := List.find?_eq_none.mp hfind (node, v) hmem
    simp [hrole, hslot] at this
  | some found =>
    obtain ⟨node', v'⟩ := found
    have hfound := List.find?_some hfind
    simp only [Bool.and_eq_true, beq_iff_eq] at hfound
    have hnode' := List.mem_zipIdx_iff_getElem?.mp (List.mem_of_find?_eq_some hfind)
    obtain rfl : v' = v := h.inj hfound.2 hslot
    cases hnode.symm.trans hnode'
    rfl

/-- Any other slot. -/
theorem labelAt_of_forall {s : Nat}
    (h : ∀ v, r.roleOf v = some .labelChange → image.slot? v ≠ some s) (current : String) :
    r.labelAt mode image s current = current := by
  refine labelFrom_of_forall (fun node v hmem hrole => h v ?_) current
  rw [List.mem_zipIdx_iff_getElem?] at hmem
  rw [roleOf, hmem, Option.map_some, hrole]

end Rule

end GraphGrammar
