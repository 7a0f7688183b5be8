import GraphGrammar.Pattern.LabelPool
import GraphGrammar.Proofs.Arena.Reached
import GraphGrammar.Proofs.Rewrite.Applicable

/-!
# Covered labels and edges that are given out

Whether labels are covered is found out from a pool, and whether edges can be given out by giving
them out one after the other. Both ask whether the required labels can be given distinct places that
hold labels they admit, and both find out: the pool because what it holds are the numbers of copies,
and a step because it serves wildcards last.

## Main definitions

* `GraphGrammar.LabelPool.copies` — the copies of a label that are left.

## Main results

* `GraphGrammar.covers_eq_labelsFit` — covering is a comparison of numbers.
* `GraphGrammar.Rule.exists_consumePair_iff` — giving out the edges between two slots.
* `GraphGrammar.covers_and_consumePair_iff_assignable` — both agree with the definition.
-/

namespace GraphGrammar

/-! ### The pool -/

namespace LabelPool

variable {wildcard : Option String} {pool pool' : LabelPool} {label : String}

/-- The number of copies of a label that are left. -/
def copies (pool : LabelPool) (label : String) : Nat := (pool.lookup label).getD 0

theorem copies_cons (key : String) (n : Nat) (pool : LabelPool) (label : String) :
    copies ((key, n) :: pool) label = if key = label then n else copies pool label := by
  rw [copies, List.lookup_cons]
  by_cases h : key = label
  · simp [h]
  · simp [h, beq_false_of_ne (Ne.symm h), copies]

theorem copies_deposit (pool : LabelPool) (label other : String) :
    (pool.deposit label).copies other = pool.copies other + if label = other then 1 else 0 := by
  induction pool with
  | nil =>
    rw [deposit, copies_cons]
    exact (Nat.zero_add _).symm
  | cons entry pool ih =>
    obtain ⟨key, n⟩ := entry
    rw [deposit]
    split
    · next hkey =>
      rw [copies_cons, copies_cons, hkey]
      split <;> rfl
    · next hkey =>
      rw [copies_cons, copies_cons, ih]
      split
      · next hother => rw [if_neg fun h => hkey (hother.trans h.symm), Nat.add_zero]
      · rfl

/-- The pool of a list holds as many copies as the list. -/
theorem copies_ofLabels (labels : List String) (label : String) :
    (ofLabels labels).copies label = labels.count label := by
  have hfold : ∀ pool : LabelPool, (labels.foldl (fun pool l => pool.deposit l) pool).copies label =
      pool.copies label + labels.count label := by
    induction labels with
    | nil => exact fun _ => rfl
    | cons l labels ih =>
      intro pool
      rw [List.foldl_cons, ih, copies_deposit, List.count_cons]
      simp only [beq_iff_eq]
      omega
  rw [ofLabels, hfold]
  exact Nat.zero_add _

theorem withdraw?_eq_none_iff : pool.withdraw? label = none ↔ pool.copies label = 0 := by
  induction pool with
  | nil => simp [withdraw?, copies]
  | cons entry pool ih =>
    obtain ⟨key, n⟩ := entry
    rw [withdraw?, copies_cons]
    split
    · split
      · simp; omega
      · simp; omega
    · rw [Option.map_eq_none_iff, ih]

/-- A copy that is taken is one of the label. -/
theorem copies_withdraw? (h : pool.withdraw? label = some pool') (other : String) :
    pool.copies other = pool'.copies other + if label = other then 1 else 0 := by
  induction pool generalizing pool' with
  | nil => cases h
  | cons entry pool ih =>
    obtain ⟨key, n⟩ := entry
    rw [withdraw?] at h
    split at h
    · next hkey =>
      split at h
      · next hn =>
        cases h
        rw [copies_cons, copies_cons, hkey]
        split <;> omega
      · cases h
    · next hkey =>
      obtain ⟨rest, hrest, rfl⟩ := Option.map_eq_some_iff.mp h
      rw [copies_cons, copies_cons, ih hrest]
      split
      · next hother => rw [if_neg fun h => hkey (hother.trans h.symm), Nat.add_zero]
      · rfl

/-- Every literal label finds a copy if there are enough copies of it. -/
theorem serves_iff {required : List String} : pool.serves wildcard required = true ↔
    ∀ l, wildcard ≠ some l → required.count l ≤ pool.copies l := by
  induction required generalizing pool with
  | nil => simp [serves]
  | cons label rest ih =>
    rw [serves]
    split
    -- a wildcard leaves the numbers of all literal labels as they are
    · next hwild =>
      rw [ih]
      refine forall₂_congr fun l hl => ?_
      rw [List.count_cons_of_ne fun h : label = l => hl (h ▸ hwild)]
    · next hliteral =>
      cases hwithdraw : pool.withdraw? label with
      | none =>
        have hcopies := withdraw?_eq_none_iff.mp hwithdraw
        refine iff_of_false Bool.false_ne_true fun h => ?_
        have hle := h label hliteral
        rw [hcopies, List.count_cons_self] at hle
        omega
      | some pool' =>
        dsimp only
        rw [ih]
        refine forall₂_congr fun l _ => ?_
        rw [copies_withdraw? hwithdraw l, List.count_cons]
        simp only [beq_iff_eq]
        omega

end LabelPool

/-- **Covering** is the comparison of numbers. -/
theorem covers_eq_labelsFit (wildcard : Option String) (required available : List String) :
    covers wildcard required available = labelsFit wildcard required available := by
  rw [Bool.eq_iff_iff, labelsFit_iff, covers]
  split
  · next hlt => exact iff_of_false Bool.false_ne_true fun h => Nat.not_le.mpr hlt h.1
  · next hle =>
    rw [LabelPool.serves_iff, and_iff_right (Nat.not_lt.mp hle)]
    simp only [LabelPool.copies_ofLabels]
    constructor
    · exact fun h l _ => or_iff_not_imp_left.mpr (h l)
    · intro h l hl
      by_cases hmem : l ∈ required
      · exact (h l hmem).resolve_left hl
      · rw [List.count_eq_zero.mpr hmem]
        exact Nat.zero_le _

/-- Of two labels the literal one is covered first, and the wildcard by what is left over. -/
example : covers (some "*") ["*", "-"] ["-", "="] = true ∧
    covers (some "*") ["*", "*", "-"] ["-", "="] = false ∧ covers none ["*"] ["-"] = false := by
  decide

/-! ### Giving out edges -/

namespace Rule

variable {r : Rule} {image : Images} {labels : List (Option String)} {edges : List (Option Edge)}
  {placed : List PlacedEdge} {a b : Nat}

/-- **Giving out the edges between two slots** succeeds if the labels are covered. Otherwise an edge
of the left side is reported. -/
theorem exists_consumePair_iff (r : Rule) (placed : List PlacedEdge) {host : Arena}
    {pair : Nat × Nat} (hhost : host.Reached) (ha : host.holdsNode pair.1 = true)
    (hb : host.holdsNode pair.2 = true) :
    ((∃ host', r.consumePair placed host pair = .ok host') ↔
      covers r.wildcard ((placedAt placed pair).map (·.label))
        (labelsAmong (present host.edges) pair.1 pair.2) = true) ∧
    (covers r.wildcard ((placedAt placed pair).map (·.label))
        (labelsAmong (present host.edges) pair.1 pair.2) = false →
      ∃ e ∈ placedAt placed pair, r.consumePair placed host pair =
        .error (.missingEdge r.id e.source e.target e.label)) := by
  obtain ⟨labels, edges, -, rfl⟩ := hhost.exists_slots
  obtain ⟨_, ha⟩ := Arena.exists_label_of_holdsNode ha
  obtain ⟨_, hb⟩ := Arena.exists_label_of_holdsNode hb
  have hnodup := nodup_slotsAt edges pair
  have hslots :
      (Arena.ofSlots labels edges).slotsBetween pair.1 pair.2 = .ok (slotsAt edges pair) :=
    Arena.slotsBetween_ofSlots ha hb
  rw [Arena.edges_ofSlots, covers_eq_labelsFit, ← isSome_choose_fitsSlot]
  cases hchoose : choose (r.fitsSlot edges)
      ((placedAt placed pair).mergeSort fun e e' => r.turn e ≤ r.turn e') (slotsAt edges pair) with
  | some chosen =>
    obtain ⟨free', hfold⟩ := foldlM_consumeEdge_of_some labels hnodup (fun _ _ => rfl) hchoose
    refine ⟨iff_of_true ?_ rfl, nofun⟩
    rw [consumePair_of_slotsBetween r placed hslots, hfold]
    exact ⟨_, rfl⟩
  | none =>
    obtain ⟨e, he, hfold⟩ := foldlM_consumeEdge_of_none labels hnodup (fun _ _ => rfl) hchoose
    have herror : r.consumePair placed (Arena.ofSlots labels edges) pair =
        .error (.missingEdge r.id e.source e.target e.label) := by
      rw [consumePair_of_slotsBetween r placed hslots, hfold]
      rfl
    refine ⟨iff_of_false ?_ Bool.false_ne_true, fun _ => ⟨e, List.mem_mergeSort.mp he, herror⟩⟩
    rintro ⟨host', hhost'⟩
    cases herror.symm.trans hhost'

end Rule

/-! ### All lists of labels -/

/-- Two nodes joined by an edge of every label of a list. -/
def Graph.joinedBy (labels : List String) : Graph :=
  ⟨["", ""], labels.map (⟨0, 1, ·⟩), by simp⟩

/-- Two nodes that are kept, joined on both sides by an edge of every label of a list. -/
def Rule.keepingJoined (wildcard : Option String) (labels : List String) : Rule :=
  ⟨none, [⟨.kept, "", none⟩, ⟨.kept, "", none⟩], labels.map (⟨0, 1, .kept, ·⟩), [], [], wildcard⟩

theorem Graph.labelsAmong_joinedBy (labels : List String) :
    labelsAmong (joinedBy labels).edges 0 1 = labels := by
  simp [joinedBy, labelsAmong, List.filter_map, Edge.connects, Function.comp_def]

/-- Any labels are those of the edges between two nodes. -/
theorem exists_host_between (available : List String) : ∃ host : Arena, host.Reached ∧
    host.holdsNode 0 = true ∧ host.holdsNode 1 = true ∧
      (labelsAmong (present host.edges) 0 1).Perm available := by
  have hhost := Arena.ofGraph_eq_host (Graph.joinedBy available).view
  have hnodes : ∀ v < 2, (Arena.ofGraph (Graph.joinedBy available).view).holdsNode v = true := by
    intro v hv
    have hlt : v < (Graph.joinedBy available).view.toGraph.labels.length :=
      hv.trans_eq (Graph.joinedBy available).view.nodeCount_toGraph.symm
    rw [hhost, Arena.host, Arena.holdsNode_ofSlots, Arena.alive, Arena.join_getElem?_map_some,
      List.getElem?_eq_getElem hlt]
    rfl
  refine ⟨_, .copy (Graph.joinedBy available).view, hnodes 0 (by decide), hnodes 1 (by decide), ?_⟩
  rw [hhost, Arena.host, Arena.edges_ofSlots, present_map_some, ← Graph.labelsBetween_view]
  refine ((Graph.joinedBy available).view.labelsBetween_toGraph 0 1).trans ?_
  rw [Graph.labelsBetween_view, Graph.labelsAmong_joinedBy]

/-- Any labels are those of the edges of a left side between two slots. -/
theorem exists_left_side_between (wildcard : Option String) (required : List String) :
    ∃ (r : Rule) (image : Images) (placed : List Rule.PlacedEdge), r.wildcard = wildcard ∧
      r.placeLeftEdges image = .ok placed ∧
        (Rule.placedAt placed (0, 1)).map (·.label) = required := by
  have hleft : (Rule.keepingJoined wildcard required).edges.filter (·.role.onLeft) =
      required.map (⟨0, 1, .kept, ·⟩) := by
    simp [Rule.keepingJoined, EdgeRole.onLeft]
  refine ⟨.keepingJoined wildcard required, [some 0, some 1],
    required.map fun l => ⟨0, 1, ⟨0, 1, .kept, l⟩⟩, rfl, ?_, ?_⟩
  · rw [Rule.placeLeftEdges, hleft, mapM_eq_ok (g := fun e => ⟨0, 1, e⟩), List.map_map]
    · rfl
    · intro e he
      obtain ⟨l, -, rfl⟩ := List.mem_map.mp he
      rfl
  · simp [Rule.placedAt, List.filter_map, Function.comp_def]

/-- **Covering and giving out edges agree with the definition.** Labels are covered exactly if the
required ones can be given distinct places among the available ones, each a place with a label that
it admits. The edges of a left side between two slots are given edges of the host exactly if this is
so for their labels; otherwise one of them is reported as missing. Any labels arise in this way. -/
theorem covers_and_consumePair_iff_assignable (wildcard : Option String)
    (required available : List String) :
    (covers wildcard required available = true ↔ Assignable wildcard required available) ∧
    (∀ (r : Rule) (placed : List Rule.PlacedEdge) (host : Arena) (pair : Nat × Nat),
      r.wildcard = wildcard → host.Reached →
      host.holdsNode pair.1 = true → host.holdsNode pair.2 = true →
      ((Rule.placedAt placed pair).map (·.label)).Perm required →
      (labelsAmong (present host.edges) pair.1 pair.2).Perm available →
      ((∃ host', r.consumePair placed host pair = .ok host') ↔
        Assignable wildcard required available) ∧
      (¬Assignable wildcard required available → ∃ e ∈ Rule.placedAt placed pair,
        r.consumePair placed host pair =
          .error (.missingEdge r.id e.source e.target e.label))) ∧
    ∃ (r : Rule) (image : Images) (placed : List Rule.PlacedEdge) (host : Arena),
      r.wildcard = wildcard ∧ r.placeLeftEdges image = .ok placed ∧ host.Reached ∧
      host.holdsNode 0 = true ∧ host.holdsNode 1 = true ∧
      ((Rule.placedAt placed (0, 1)).map (·.label)).Perm required ∧
      (labelsAmong (present host.edges) 0 1).Perm available := by
  have hcovers : covers wildcard required available = true ↔
      Assignable wildcard required available := by
    rw [covers_eq_labelsFit, assignable_iff_labelsFit]
  refine ⟨hcovers, fun r placed host pair hwild hhost ha hb hrequired havailable => ?_, ?_⟩
  · have hpair := r.exists_consumePair_iff placed hhost ha hb
    rw [covers_eq_labelsFit, labelsFit_congr hrequired havailable, hwild, ← covers_eq_labelsFit,
      hcovers, ← Bool.not_eq_true, hcovers] at hpair
    exact hpair
  · obtain ⟨r, image, placed, hwild, hplaced, hrequired⟩ :=
      exists_left_side_between wildcard required
    obtain ⟨host, hhost, ha, hb, havailable⟩ := exists_host_between available
    exact ⟨r, image, placed, host, hwild, hplaced, hhost, ha, hb, .of_eq hrequired, havailable⟩

/-- Two nodes joined by two edges. -/
def Graph.doubleBond : Graph := ⟨["a", "b"], [⟨0, 1, "-"⟩, ⟨0, 1, "="⟩], by decide⟩

/-- Two nodes joined by an edge of any label, which is removed, and by one that stays. -/
def Rule.cutEither (wildcard : Option String) : Rule :=
  ⟨none, [⟨.kept, "a", none⟩, ⟨.kept, "b", none⟩], [⟨0, 1, .leftOnly, "*"⟩, ⟨0, 1, .kept, "-"⟩], [],
    [], wildcard⟩

/-- The edges of this rule with the slots `0` and `1`. -/
def Rule.cutEitherPlaced : List Rule.PlacedEdge :=
  [⟨0, 1, ⟨0, 1, .leftOnly, "*"⟩⟩, ⟨0, 1, ⟨0, 1, .kept, "-"⟩⟩]

/-- The wildcard is given what the literal label leaves over. Taken literally it is missing. -/
theorem covers_and_consumePair_iff_assignable_doubleBond :
    (Arena.ofGraph Graph.doubleBond.view).Reached ∧
    ((Rule.placedAt Rule.cutEitherPlaced (0, 1)).map (·.label)).Perm ["*", "-"] ∧
    (labelsAmong (present (Arena.ofGraph Graph.doubleBond.view).edges) 0 1).Perm ["=", "-"] ∧
    covers (some "*") ["*", "-"] ["=", "-"] = true ∧
    (∃ host', (Rule.cutEither (some "*")).consumePair Rule.cutEitherPlaced
      (Arena.ofGraph Graph.doubleBond.view) (0, 1) = .ok host') ∧
    ¬Assignable none ["*", "-"] ["=", "-"] ∧
    ∃ e ∈ Rule.placedAt Rule.cutEitherPlaced (0, 1),
      (Rule.cutEither none).consumePair Rule.cutEitherPlaced
        (Arena.ofGraph Graph.doubleBond.view) (0, 1) =
          .error (.missingEdge none e.source e.target e.label) := by
  have hhost : (Arena.ofGraph Graph.doubleBond.view).Reached := .copy _
  have hrequired : ((Rule.placedAt Rule.cutEitherPlaced (0, 1)).map (·.label)).Perm
      ["*", "-"] := by decide
  have havailable : (labelsAmong (present (Arena.ofGraph Graph.doubleBond.view).edges) 0 1).Perm
      ["=", "-"] := by decide +kernel
  have hzero : (Arena.ofGraph Graph.doubleBond.view).holdsNode 0 = true := by decide +kernel
  have hone : (Arena.ofGraph Graph.doubleBond.view).holdsNode 1 = true := by decide +kernel
  have hcovers : covers (some "*") ["*", "-"] ["=", "-"] = true := by decide
  obtain ⟨hwild, hgiven, -⟩ :=
    covers_and_consumePair_iff_assignable (some "*") ["*", "-"] ["=", "-"]
  obtain ⟨hliteral, hmissing, -⟩ := covers_and_consumePair_iff_assignable none ["*", "-"] ["=", "-"]
  have hnot : ¬Assignable none ["*", "-"] ["=", "-"] := fun h =>
    Bool.false_ne_true ((by decide : false = covers none ["*", "-"] ["=", "-"]).trans
      (hliteral.mpr h))
  exact ⟨hhost, hrequired, havailable, hcovers,
    (hgiven (.cutEither (some "*")) _ _ (0, 1) rfl hhost hzero hone hrequired havailable).1.mpr
      (hwild.mp hcovers), hnot,
    (hmissing (.cutEither none) _ _ (0, 1) rfl hhost hzero hone hrequired havailable).2 hnot⟩

end GraphGrammar
