import GraphGrammar.Proofs.Graph.Components
import GraphGrammar.Proofs.Matching.PartialMatch

/-!
# The order of placing, block by block

The next node to be placed precedes all others, first of all by the number of its edges to placed
nodes. So one without such edges is taken only when no other has any. Then no edge leads from the
placed nodes to what is left, and a new block begins, to which all further edges lead until it is
complete. The blocks are the connected components, and every node of a block but the first shares an
edge with an earlier one.

## Main definitions

* `GraphGrammar.GraphView.Precedes` — which of two nodes is placed first.
* `GraphGrammar.GraphView.Grows` — lists that grow along edges.
* `GraphGrammar.GraphView.Continues` — how placing goes on after a block.

## Main results

* `GraphGrammar.GraphView.nextNode_precedes` — the next node is the best.
* `GraphGrammar.GraphView.continues_arrange` — one node after the other.
* `GraphGrammar.GraphView.exists_blocks_placingOrder` — the whole order.
-/

namespace GraphGrammar

/-! ### The best of a list -/

/-- Going through a list and keeping the better of two members ends with one that is better than
all others. -/
theorem foldl_best {R : Nat → Nat → Prop} (htrans : ∀ {a b c}, R a b → R b c → R a c)
    {replace : Nat → Nat → Bool} {v : Nat} {l : List Nat}
    (h : (v :: l).Pairwise fun a b => if replace a b = true then R b a else R a b) :
    ∀ w ∈ v :: l, w = l.foldl (fun best w => if replace best w then w else best) v ∨
      R (l.foldl (fun best w => if replace best w then w else best) v) w := by
  induction l generalizing v with
  | nil => exact fun w hw => .inl (List.mem_singleton.mp hw)
  | cons b l ih =>
    obtain ⟨hv, hl⟩ := List.pairwise_cons.mp h
    obtain ⟨hb, hrest⟩ := List.pairwise_cons.mp hl
    have hstep := hv b (List.mem_cons_self ..)
    rw [List.foldl_cons]
    -- The one of the first two that is dropped is worse than the one that is kept.
    by_cases hreplace : replace v b = true
    · rw [if_pos hreplace] at hstep ⊢
      have hbest := ih hl
      refine List.forall_mem_cons.mpr ⟨.inr ?_, hbest⟩
      rcases hbest b (List.mem_cons_self ..) with heq | hbetter
      · rwa [← heq]
      · exact htrans hbetter hstep
    · rw [if_neg hreplace] at hstep ⊢
      have hbest := ih (List.pairwise_cons.mpr
        ⟨fun w hw => hv w (List.mem_cons_of_mem _ hw), hrest⟩)
      refine List.forall_mem_cons.mpr ⟨hbest v (List.mem_cons_self ..), List.forall_mem_cons.mpr
        ⟨.inr ?_, fun w hw => hbest w (List.mem_cons_of_mem _ hw)⟩⟩
      rcases hbest v (List.mem_cons_self ..) with heq | hbetter
      · rwa [← heq]
      · exact htrans hbetter hstep

namespace GraphView

variable {g : GraphView} {weight : Nat → Nat} {placed : List Nat} {u v w : Nat}

/-- `v` is placed before `w` where no node has edges to placed nodes: because it has more weight, or
as much and a greater degree, or as great a one and a smaller number. -/
def PrecedesAsSeed (g : GraphView) (weight : Nat → Nat) (v w : Nat) : Prop :=
  weight w < weight v ∨ weight w = weight v ∧
    (g.degree w < g.degree v ∨ g.degree w = g.degree v ∧ v < w)

/-- `v` is placed before `w`: because it has more edges to placed nodes, or as many and it precedes
as a seed. -/
def Precedes (g : GraphView) (weight : Nat → Nat) (placed : List Nat) (v w : Nat) : Prop :=
  g.linksInto placed w < g.linksInto placed v ∨
    g.linksInto placed w = g.linksInto placed v ∧ g.PrecedesAsSeed weight v w

theorem PrecedesAsSeed.trans (h : g.PrecedesAsSeed weight u v) (h' : g.PrecedesAsSeed weight v w) :
    g.PrecedesAsSeed weight u w := by
  simp only [PrecedesAsSeed] at *
  omega

theorem Precedes.trans (h : g.Precedes weight placed u v) (h' : g.Precedes weight placed v w) :
    g.Precedes weight placed u w := by
  simp only [Precedes, PrecedesAsSeed] at *
  omega

theorem Precedes.asymm (h : g.Precedes weight placed v w) : ¬g.Precedes weight placed w v := by
  simp only [Precedes, PrecedesAsSeed] at *
  omega

theorem outranks_iff : g.outranks weight placed v w = true ↔
    g.linksInto placed w < g.linksInto placed v ∨
      g.linksInto placed w = g.linksInto placed v ∧ (weight w < weight v ∨
        weight w = weight v ∧ g.degree w < g.degree v) := by
  simp only [outranks, Ordering.isGT_iff_eq_gt, Ordering.then_eq_gt, Nat.compare_eq_gt,
    Nat.compare_eq_eq]
  omega

/-- **The next node** precedes all other remaining nodes. -/
theorem nextNode_precedes (g : GraphView) (weight : Nat → Nat) (placed : List Nat) {v : Nat}
    {rest : List Nat} (h : (v :: rest).Pairwise (· < ·)) :
    ∀ w ∈ v :: rest, w = g.nextNode weight placed v rest ∨
      g.Precedes weight placed (g.nextNode weight placed v rest) w := by
  refine foldl_best (R := g.Precedes weight placed) Precedes.trans (h.imp fun {a b} hab => ?_)
  split
  · next hrank =>
    rw [outranks_iff] at hrank
    simp only [Precedes, PrecedesAsSeed]
    omega
  · next hrank =>
    rw [outranks_iff] at hrank
    simp only [Precedes, PrecedesAsSeed]
    omega

theorem exists_hasEdge_of_linksInto_pos (h : 0 < g.linksInto placed v) :
    ∃ u ∈ placed, g.hasEdge v u = true := by
  obtain ⟨e, he, hplaced⟩ := List.countP_pos_iff.mp h
  exact ⟨e.node, by simpa using hplaced, List.any_eq_true.mpr ⟨e, he, beq_self_eq_true _⟩⟩

theorem hasEdge_eq_false_of_linksInto_eq_zero (h : g.linksInto placed v = 0) (hu : u ∈ placed) :
    g.hasEdge v u = false := by
  rw [Bool.eq_false_iff]
  intro hedge
  obtain ⟨e, he, hnode⟩ := List.any_eq_true.mp hedge
  have hpos : 0 < g.linksInto placed v :=
    List.countP_pos_iff.mpr ⟨e, he, by simpa [eq_of_beq hnode] using hu⟩
  omega

/-! ### Blocks -/

/-- Every node of a list but the first shares an edge with an earlier one. -/
def Grows (g : GraphView) (l : List Nat) : Prop :=
  ∀ before v after, l = before ++ v :: after → before ≠ [] → ∃ u ∈ before, g.hasEdge v u = true

/-- `Continues g block rest`: when the nodes of `block` were placed, those of `rest` follow. Each of
them shares an edge with the block so far, or begins a new block when no edge leads from the old one
to what is left. -/
inductive Continues (g : GraphView) : List Nat → List Nat → Prop
  /-- Nothing is left. -/
  | done (block : List Nat) : Continues g block []
  /-- The block grows along an edge. -/
  | grow {block rest : List Nat} {u v : Nat} (hu : u ∈ block) (hedge : g.hasEdge v u = true)
    (h : Continues g (block ++ [v]) rest) : Continues g block (v :: rest)
  /-- A new block begins. -/
  | seed {block rest : List Nat} {v : Nat}
    (hapart : ∀ u ∈ block, ∀ w ∈ v :: rest, g.hasEdge u w = false)
    (h : Continues g [v] rest) : Continues g block (v :: rest)

theorem grows_singleton (g : GraphView) (v : Nat) : g.Grows [v] := by
  intro before w after heq hne
  cases before with
  | nil => exact absurd rfl hne
  | cons u before => simp at heq

theorem Grows.of_append {l l' : List Nat} (h : g.Grows (l ++ l')) : g.Grows l := by
  intro before v after heq hne
  exact h before v (after ++ l') (by rw [heq, List.append_assoc, List.cons_append]) hne

theorem Grows.append_singleton {l : List Nat} (h : g.Grows l) (hu : u ∈ l)
    (hedge : g.hasEdge v u = true) : g.Grows (l ++ [v]) := by
  intro before w after heq hne
  rcases List.eq_nil_or_concat after with rfl | ⟨after, x, rfl⟩
  · obtain ⟨rfl, rfl⟩ := List.append_singleton_inj.mp heq
    exact ⟨u, hu, hedge⟩
  · rw [List.concat_eq_append, ← List.cons_append, ← List.append_assoc] at heq
    exact h before w after (List.append_inj_left' heq rfl) hne

/-- **The nodes of a block** are linked with its first node. -/
theorem Grows.linked {l : List Nat} (h : g.Grows l) (hv : l.head? = some v) (hw : w ∈ l) :
    g.Linked v w := by
  induction l using List.reverseRecOn generalizing w with
  | nil => exact absurd hw List.not_mem_nil
  | append_singleton l x ih =>
    rcases List.eq_nil_or_concat l with rfl | hne
    · obtain rfl := Option.some.inj hv
      obtain rfl := List.mem_singleton.mp hw
      exact Linked.refl g w
    · have hne' : l ≠ [] := by
        obtain ⟨l, y, rfl⟩ := hne
        simp
      rw [List.head?_append_of_ne_nil _ hne'] at hv
      rcases List.mem_append.mp hw with hw | hw
      · exact ih h.of_append hv hw
      · obtain rfl := List.mem_singleton.mp hw
        obtain ⟨u, hu, hedge⟩ := h l w [] rfl hne'
        exact (ih h.of_append hv hu).trans (Linked.of_hasEdge (g.hasEdge_comm w u ▸ hedge))

/-- **Placing goes on block by block**, as edges lead to the remaining nodes from the last block
only. -/
theorem continues_arrange {closed block remaining : List Nat} (hsorted : remaining.Pairwise (· < ·))
    (hclosed : ∀ u ∈ closed, ∀ w ∈ remaining, g.hasEdge u w = false) :
    g.Continues block (g.arrange weight (closed ++ block) remaining) := by
  generalize hplaced : closed ++ block = placed
  fun_induction arrange g weight placed remaining generalizing closed block with
  | case1 => exact .done block
  | case2 placed v rest ih =>
    have hmem := g.nextNode_mem weight placed v rest
    have hsorted' := hsorted.sublist (List.erase_sublist (a := g.nextNode weight placed v rest))
    have herase : ∀ w ∈ (v :: rest).erase (g.nextNode weight placed v rest), w ∈ v :: rest :=
      fun w hw => List.mem_of_mem_erase hw
    rcases Nat.eq_zero_or_pos (g.linksInto placed (g.nextNode weight placed v rest)) with
      hzero | hpos
    · -- The next node has most links, so no remaining node has any.
      have hnone : ∀ w ∈ v :: rest, ∀ u ∈ placed, g.hasEdge u w = false := by
        intro w hw u hu
        rw [g.hasEdge_comm]
        refine hasEdge_eq_false_of_linksInto_eq_zero ?_ hu
        rcases g.nextNode_precedes weight placed hsorted w hw with heq | hbest
        · rw [heq, hzero]
        · simp only [Precedes] at hbest
          omega
      refine .seed (fun u hu w hw => hnone w ?_ u (hplaced ▸ List.mem_append_right _ hu)) ?_
      · rcases List.mem_cons.mp hw with rfl | hw
        · exact hmem
        · exact herase w ((g.arrange_perm weight _ _).mem_iff.mp hw)
      · exact ih hsorted' (fun u hu w hw => hnone w (herase w hw) u hu) rfl
    · obtain ⟨u, hu, hedge⟩ := exists_hasEdge_of_linksInto_pos hpos
      have hublock : u ∈ block := by
        refine (List.mem_append.mp (hplaced ▸ hu)).resolve_left fun hclosed' => ?_
        have hapart := hclosed u hclosed' _ hmem
        rw [g.hasEdge_comm, hedge] at hapart
        cases hapart
      refine .grow hublock hedge (ih hsorted' (fun u hu w hw => hclosed u hu w (herase w hw)) ?_)
      rw [← List.append_assoc, hplaced]

/-- **What follows a block** is the rest of it and further blocks. -/
theorem Continues.exists_blocks {block rest : List Nat} (h : g.Continues block rest)
    (hgrows : g.Grows block) : ∃ grown blocks, rest = grown ++ blocks.flatten ∧
      g.Grows (block ++ grown) ∧ (∀ b ∈ blocks, b ≠ [] ∧ g.Grows b) ∧
      ((block ++ grown) :: blocks).Pairwise
        fun b b' => ∀ u ∈ b, ∀ w ∈ b', g.hasEdge u w = false := by
  induction h with
  | done block =>
    exact ⟨[], [], rfl, by rwa [List.append_nil], fun b hb => absurd hb List.not_mem_nil,
      List.pairwise_singleton _ _⟩
  | @grow block rest u v hu hedge h ih =>
    obtain ⟨grown, blocks, rfl, hgrows', hblocks, hapart⟩ := ih (hgrows.append_singleton hu hedge)
    rw [List.append_assoc, List.singleton_append] at hgrows' hapart
    exact ⟨v :: grown, blocks, rfl, hgrows', hblocks, hapart⟩
  | @seed block rest v hapart h ih =>
    obtain ⟨grown, blocks, rfl, hgrows', hblocks, hapart'⟩ := ih (g.grows_singleton v)
    rw [List.singleton_append] at hgrows' hapart'
    refine ⟨[], (v :: grown) :: blocks, rfl, by rwa [List.append_nil],
      List.forall_mem_cons.mpr ⟨⟨List.cons_ne_nil _ _, hgrows'⟩, hblocks⟩, ?_⟩
    rw [List.append_nil]
    refine List.pairwise_cons.mpr ⟨fun b hb u hu w hw => hapart u hu w ?_, hapart'⟩
    rw [← List.cons_append, ← List.flatten_cons]
    exact List.mem_flatten.mpr ⟨b, hb, hw⟩

/-- **The order of placing** is made of the components one after the other, each of which grows
along edges. -/
theorem exists_blocks_placingOrder (g : GraphView) (weight : Nat → Nat) :
    ∃ blocks, g.placingOrder weight = blocks.flatten ∧
      g.Separates blocks (List.range g.nodeCount) ∧ ∀ block ∈ blocks, g.Grows block := by
  have hperm : (g.placingOrder weight).Perm (List.range g.nodeCount) :=
    g.arrange_perm weight [] _
  have hcontinues : g.Continues [] (g.arrange weight ([] ++ []) (List.range g.nodeCount)) :=
    continues_arrange List.pairwise_lt_range fun u hu => absurd hu List.not_mem_nil
  rw [List.append_nil, ← placingOrder] at hcontinues
  generalize g.placingOrder weight = order at hperm hcontinues ⊢
  cases hcontinues with
  | done =>
    exact ⟨[], rfl, ⟨hperm, fun b hb => absurd hb List.not_mem_nil,
      fun b hb => absurd hb List.not_mem_nil, .nil⟩, fun b hb => absurd hb List.not_mem_nil⟩
  | grow hu => exact absurd hu List.not_mem_nil
  | @seed _ rest v _ h =>
    obtain ⟨grown, blocks, rfl, hgrown, hblocks, hapart⟩ := h.exists_blocks (g.grows_singleton v)
    rw [List.singleton_append] at hgrown hapart
    have hall : ∀ block ∈ (v :: grown) :: blocks, block ≠ [] ∧ g.Grows block :=
      List.forall_mem_cons.mpr ⟨⟨List.cons_ne_nil _ _, hgrown⟩, hblocks⟩
    refine ⟨(v :: grown) :: blocks, rfl, ⟨hperm, fun b hb => (hall b hb).1, ?_, hapart⟩,
      fun b hb => (hall b hb).2⟩
    intro b hb u hu w hw
    obtain ⟨seed, rest, rfl⟩ := List.exists_cons_of_ne_nil (hall b hb).1
    exact ((hall _ hb).2.linked rfl hu).symm.trans ((hall _ hb).2.linked rfl hw)

end GraphView

end GraphGrammar
