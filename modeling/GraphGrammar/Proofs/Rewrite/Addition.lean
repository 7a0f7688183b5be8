import GraphGrammar.Proofs.Arena.Hosts
import GraphGrammar.Proofs.Rewrite.Removal

/-!
# Adding nodes and edges

Right-only nodes fill the next slots, in the order of the rule. Then every node of the right side
has a slot, and the right-only edges and the copies of the edges that lost an endpoint are put
behind the edges that are there.

## Main definitions

* `GraphGrammar.Rule.fullImage` — the slots of the nodes of both sides.
* `GraphGrammar.Rule.newEdges`, `GraphGrammar.Rule.copies` — the edges that are added.

## Main results

* `GraphGrammar.Rule.addRightSide_eq`, `GraphGrammar.Rule.reroute_eq` — the phases.
-/

namespace GraphGrammar

namespace Rule

variable {r : Rule} {image : Images} {n : Nat} {labels : List (Option String)}
  {edges : List (Option Edge)}

/-! ### New nodes -/

/-- Whether a rule node is right-only. -/
def isRightOnly (r : Rule) (v : Nat) : Bool := r.roleOf v == some .rightOnly

/-- The slots of all rule nodes, where right-only nodes get the slots from `n` on. -/
def fullImage (r : Rule) (n : Nat) (image : Images) : Images :=
  (List.range r.nodes.length).map fun v =>
    if r.isRightOnly v then some (n + rank r.isRightOnly v) else image.slot? v

/-- The labels of the right-only nodes. -/
def newLabels (r : Rule) : List String :=
  (r.nodes.filter fun node => node.role = .rightOnly).map (·.label)

theorem slot?_fullImage (r : Rule) (n : Nat) (image : Images) {v : Nat}
    (hv : v < r.nodes.length) : (r.fullImage n image).slot? v =
      if r.isRightOnly v then some (n + rank r.isRightOnly v) else image.slot? v := by
  rw [Images.slot?, fullImage, List.getElem?_map, List.getElem?_range hv]
  rfl

/-- The slots after some nodes were added, the first of them in slot `n`. -/
def assignSlots (n : Nat) : List (RuleNode × Nat) → Images → Images
  | [], image => image
  | (node, v) :: nodes, image =>
    if node.role = .rightOnly then assignSlots (n + 1) nodes (image.set v (some n))
    else assignSlots n nodes image

theorem foldl_insertNode_eq (nodes : List (RuleNode × Nat)) (labels : List (Option String))
    (image : Images)
    (h : ∀ e : Edge, some e ∈ edges → e.source < labels.length ∧ e.target < labels.length) :
    nodes.foldl insertNode (Arena.ofSlots labels edges, image) =
      (Arena.ofSlots (labels ++
          (((nodes.map Prod.fst).filter fun node => node.role = .rightOnly).map (·.label)).map some)
        edges, assignSlots labels.length nodes image) := by
  induction nodes generalizing labels image with
  | nil => simp [assignSlots]
  | cons first nodes ih =>
    obtain ⟨node, v⟩ := first
    rw [List.foldl_cons, insertNode, assignSlots]
    by_cases hrole : node.role = .rightOnly
    · simp only [hrole, if_true, List.map_cons, List.filter_cons, decide_true]
      rw [Arena.addNode_ofSlots (Arena.touching_eq_nil (Nat.le_refl _) h),
        Arena.length_nodes_ofSlots, ih]
      · simp
      · intro e he
        have := h e he
        rw [List.length_append, List.length_singleton]
        omega
    · simp only [hrole, if_false, List.map_cons, List.filter_cons, decide_false,
        Bool.false_eq_true]
      exact ih labels image h

theorem getElem?_assignSlots (n k : Nat) (nodes : List RuleNode) (image : Images) (v : Nat)
    (hlen : k + nodes.length = image.length) :
    (assignSlots n (nodes.zipIdx k) image)[v]? =
      if k ≤ v ∧ (nodes[v - k]?).any (fun node => node.role = .rightOnly) then
        some (some (n + (nodes.take (v - k)).countP fun node => node.role = .rightOnly))
      else image[v]? := by
  induction nodes generalizing n k image with
  | nil => simp [assignSlots]
  | cons node nodes ih =>
    rw [List.length_cons] at hlen
    rw [List.zipIdx_cons, assignSlots]
    rcases Nat.lt_trichotomy v k with hv | rfl | hv
    · -- an entry before those of the nodes is not touched
      rw [if_neg (by omega : ¬(k ≤ v ∧ _))]
      split
      · rw [ih _ _ _ (by rw [List.length_set]; omega), if_neg (by omega : ¬(k + 1 ≤ v ∧ _)),
          List.getElem?_set_ne (by omega)]
      · rw [ih _ _ _ (by omega), if_neg (by omega : ¬(k + 1 ≤ v ∧ _))]
    · have hnot : ∀ c : Prop, ¬(v + 1 ≤ v ∧ c) := fun c h => by omega
      simp only [Nat.sub_self, List.getElem?_cons_zero, Option.any_some, List.take_zero,
        List.countP_nil, Nat.le_refl, true_and, Nat.add_zero, decide_eq_true_eq]
      split
      · rw [ih _ _ _ (by rw [List.length_set]; omega), if_neg (hnot _),
          List.getElem?_set_self (by omega)]
      · rw [ih _ _ _ (by omega), if_neg (hnot _)]
    · obtain ⟨j, rfl⟩ : ∃ j, v = k + 1 + j := ⟨v - (k + 1), by omega⟩
      have hsub : k + 1 + j - k = j + 1 := by omega
      have hsub' : k + 1 + j - (k + 1) = j := by omega
      have hle : k ≤ k + 1 + j := by omega
      have hle' : k + 1 ≤ k + 1 + j := by omega
      simp only [hsub, hle, true_and, List.getElem?_cons_succ, List.take_succ_cons,
        List.countP_cons]
      split
      · next hrole =>
        rw [ih _ _ _ (by rw [List.length_set]; omega), List.getElem?_set_ne (by omega)]
        simp only [hsub', hle', true_and, hrole, decide_true, if_true]
        refine ite_congr rfl (fun _ => ?_) fun _ => rfl
        rw [Nat.add_assoc, Nat.add_comm 1]
      · next hrole =>
        rw [ih _ _ _ (by omega)]
        simp only [hsub', hle', true_and, hrole, decide_false, Bool.false_eq_true, if_false,
          Nat.add_zero]

theorem isRightOnly_eq (r : Rule) (v : Nat) :
    r.isRightOnly v = (r.nodes[v]?).any fun node => node.role = .rightOnly := by
  rw [isRightOnly, roleOf]
  cases r.nodes[v]? with
  | none => rfl
  | some node => cases hrole : node.role <;> simp [hrole]

theorem rank_isRightOnly (r : Rule) (v : Nat) :
    rank r.isRightOnly v = (r.nodes.take v).countP fun node => node.role = .rightOnly := by
  induction v with
  | zero => rfl
  | succ v ih =>
    rw [rank_succ, ih, List.take_add_one, List.countP_append, isRightOnly_eq]
    cases r.nodes[v]? <;> simp [List.countP_cons]

/-- The label of a right-only node stands at its rank. -/
theorem getElem?_newLabels {v : Nat} (hv : v < r.nodes.length)
    (hrole : r.nodes[v].role = .rightOnly) :
    r.newLabels[rank r.isRightOnly v]? = some r.nodes[v].label := by
  let new : RuleNode → Bool := fun node => node.role = .rightOnly
  have hsplit : r.nodes.filter new =
      (r.nodes.take v).filter new ++ r.nodes[v] :: (r.nodes.drop (v + 1)).filter new := by
    rw [← List.filter_cons_of_pos (p := new) (decide_eq_true hrole), ← List.filter_append,
      ← List.drop_eq_getElem_cons hv, List.take_append_drop]
  have hrank : rank r.isRightOnly v = ((r.nodes.take v).filter new).length := by
    rw [rank_isRightOnly, List.countP_eq_length_filter]
  rw [hrank, newLabels, List.getElem?_map, hsplit, List.getElem?_append_right (Nat.le_refl _),
    Nat.sub_self]
  rfl

theorem assignSlots_eq (n : Nat) (hlen : image.length = r.nodes.length) :
    assignSlots n r.nodes.zipIdx image = r.fullImage n image := by
  refine List.ext_getElem? fun v => ?_
  rw [getElem?_assignSlots n 0 r.nodes image v (by omega), Nat.sub_zero, fullImage,
    List.getElem?_map, ← isRightOnly_eq, ← rank_isRightOnly]
  simp only [Nat.zero_le, true_and]
  rcases Nat.lt_or_ge v r.nodes.length with hv | hv
  · rw [List.getElem?_range hv, Option.map_some]
    split
    · rfl
    · rw [Images.slot?, List.getElem?_eq_getElem (by omega)]
      rfl
  · have hrange : (List.range r.nodes.length).length ≤ v := by rwa [List.length_range]
    have himage : image.length ≤ v := by omega
    rw [isRightOnly_eq, List.getElem?_eq_none hv, List.getElem?_eq_none hrange,
      List.getElem?_eq_none himage]
    rfl

/-! ### New edges -/

/-- The right-only edges between the slots of their endpoints. -/
def newEdges (r : Rule) (image : Images) : List Edge :=
  (r.edges.filter fun e => e.role = .rightOnly).map fun e =>
    ⟨image.slot e.source, image.slot e.target, e.label⟩

/-- A slot of a rule node, in which there is a node. -/
def HasAliveSlot (image : Images) (labels : List (Option String)) (v : Nat) : Prop :=
  ∃ s label, image.slot? v = some s ∧ (labels[s]?).join = some label

theorem HasAliveSlot.slot? {v : Nat} (h : HasAliveSlot image labels v) :
    image.slot? v = some (image.slot v) ∧ ∃ label, (labels[image.slot v]?).join = some label := by
  obtain ⟨s, label, hs, hlabel⟩ := h
  rw [Images.slot, hs]
  exact ⟨rfl, label, hlabel⟩

theorem foldlM_insertEdge_eq (r : Rule) {ruleEdges : List RuleEdge}
    (h : ∀ e ∈ ruleEdges, e.role = .rightOnly →
      HasAliveSlot image labels e.source ∧ HasAliveSlot image labels e.target)
    (edges : List (Option Edge)) :
    ruleEdges.foldlM (r.insertEdge image) (Arena.ofSlots labels edges) =
      .ok (Arena.ofSlots labels (edges ++ ((ruleEdges.filter fun e => e.role = .rightOnly).map
        fun e => Edge.mk (image.slot e.source) (image.slot e.target) e.label).map some)) := by
  induction ruleEdges generalizing edges with
  | nil => simp [pure, Except.pure]
  | cons e ruleEdges ih =>
    have hrest := ih fun e' he' => h e' (List.mem_cons_of_mem _ he')
    rw [List.foldlM_cons, insertEdge, List.filter_cons]
    by_cases hrole : e.role = .rightOnly
    · obtain ⟨hs, ht⟩ := h e (List.mem_cons_self ..) hrole
      obtain ⟨hs, _, hslabel⟩ := hs.slot?
      obtain ⟨ht, _, htlabel⟩ := ht.slot?
      simp only [hrole, if_true, decide_true, imageSlot_eq hs, imageSlot_eq ht, bind, Except.bind,
        Arena.addEdge_ofSlots (e := ⟨image.slot e.source, image.slot e.target, e.label⟩) hslabel
          htlabel]
      refine (hrest _).trans ?_
      simp
    · simp only [hrole, if_false, decide_false, Bool.false_eq_true]
      exact hrest edges

/-- **Adding the right side** puts new nodes and edges behind those that are there. -/
theorem addRightSide_eq (hlen : image.length = r.nodes.length)
    (hedges : ∀ e : Edge, some e ∈ edges → e.source < labels.length ∧ e.target < labels.length)
    (halive : ∀ e ∈ r.edges, e.role = .rightOnly → ∀ v, v = e.source ∨ v = e.target →
      HasAliveSlot (r.fullImage labels.length image) (labels ++ r.newLabels.map some) v) :
    r.addRightSide image (Arena.ofSlots labels edges) =
      .ok (Arena.ofSlots (labels ++ r.newLabels.map some)
          (edges ++ (r.newEdges (r.fullImage labels.length image)).map some),
        r.fullImage labels.length image) := by
  rw [addRightSide, foldl_insertNode_eq _ _ _ hedges, List.zipIdx_map_fst, ← newLabels,
    assignSlots_eq _ hlen]
  simp only [bind, Except.bind]
  rw [foldlM_insertEdge_eq r fun e he hrole =>
    ⟨halive e he hrole _ (.inl rfl), halive e he hrole _ (.inr rfl)⟩]
  rfl

/-! ### Copies of loose edges -/

/-- The directives that admit a loose edge. -/
def admitting (r : Rule) (image : Images) (d : LooseEdge) : List Rerouting :=
  (r.directivesOf d.source).filter fun directive =>
    directive.admits (r.ruleNodeAt image d.survivor) d.label

/-- The copies of a loose edge. -/
def copies (r : Rule) (image : Images) (d : LooseEdge) : List Edge :=
  (r.admitting image d).map fun directive =>
    ⟨image.slot directive.pasteTarget, d.survivor, d.label⟩

theorem drawAgain_eq (r : Rule) {d : LooseEdge} {label : String}
    (hsurvivor : (labels[d.survivor]?).join = some label)
    (htarget : ∀ directive ∈ r.directives, HasAliveSlot image labels directive.pasteTarget)
    (edges : List (Option Edge)) :
    r.drawAgain image (Arena.ofSlots labels edges) d =
      .ok (Arena.ofSlots labels (edges ++ (r.copies image d).map some)) := by
  have hsub : ∀ directive ∈ r.admitting image d,
      HasAliveSlot image labels directive.pasteTarget := fun directive hd =>
    htarget directive (List.mem_of_mem_filter (List.mem_of_mem_filter hd))
  rw [drawAgain, copies]
  change (r.admitting image d).foldlM _ _ = _
  generalize r.admitting image d = directives at hsub ⊢
  induction directives generalizing edges with
  | nil => simp [pure, Except.pure]
  | cons directive directives ih =>
    obtain ⟨hslot, _, hlabel⟩ := (hsub directive (List.mem_cons_self ..)).slot?
    have hrest := ih (edges ++ [some ⟨image.slot directive.pasteTarget, d.survivor, d.label⟩])
      fun directive' h' => hsub directive' (List.mem_cons_of_mem _ h')
    rw [List.foldlM_cons]
    simp only [imageSlot_eq hslot, bind, Except.bind, Arena.addEdge_ofSlots
      (e := ⟨image.slot directive.pasteTarget, d.survivor, d.label⟩) hlabel hsurvivor]
    refine hrest.trans ?_
    simp

/-- **Drawing the loose edges again** puts their copies behind the edges that are there. -/
theorem reroute_eq (r : Rule) {loose : List LooseEdge}
    (hsurvivor : ∀ d ∈ loose, ∃ label, (labels[d.survivor]?).join = some label)
    (htarget : ∀ directive ∈ r.directives, HasAliveSlot image labels directive.pasteTarget)
    (edges : List (Option Edge)) :
    r.reroute image loose (Arena.ofSlots labels edges) =
      .ok (Arena.ofSlots labels (edges ++ (loose.flatMap (r.copies image)).map some)) := by
  rw [reroute]
  induction loose generalizing edges with
  | nil => simp [pure, Except.pure]
  | cons d loose ih =>
    obtain ⟨_, hlabel⟩ := hsurvivor d (List.mem_cons_self ..)
    rw [List.foldlM_cons, drawAgain_eq r hlabel htarget]
    refine (ih (fun d' hd' => hsurvivor d' (List.mem_cons_of_mem _ hd')) _).trans ?_
    rw [List.flatMap_cons, List.map_append, List.append_assoc]

end Rule

end GraphGrammar
