import GraphGrammar.Graph.ParentTable
import GraphGrammar.Proofs.Graph.DisjointSets
import Mathlib.Data.List.Nodup
import Mathlib.Data.List.Perm.Subperm
import Mathlib.Tactic.Choose

/-!
# Uniting sets in a table

In a forest the parents lead from every number to a root. Looking up a number then ends at its root
and changes no root, and uniting two sets gives the members of the second set the root of the first.
So a forest stays a forest. Which of two roots is kept does not matter for the sets: a table agrees
with disjoint sets in which the smaller root is kept, and after the same pairs were united in both
it still does.

## Main definitions

* `GraphGrammar.ParentTable.LeadsTo` — parents lead from a number to a root.
* `GraphGrammar.ParentTable.IsForest` — parents lead from every number to a root.
* `GraphGrammar.ParentTable.Agrees` — a table has the same sets as disjoint sets.

## Main results

* `GraphGrammar.ParentTable.exists_find_eq` — what looking up a number does.
* `GraphGrammar.ParentTable.exists_union_eq` — what uniting two sets does.
* `GraphGrammar.ParentTable.Agrees.exists_unionAll_eq` — a table after many pairs were united.
* `GraphGrammar.ParentTable.exists_roots_eq` — the roots that are found in it.
-/

namespace GraphGrammar

namespace ParentTable

variable {t t' : ParentTable} {i j r s : Nat}

/-! ### Roots -/

/-- Parents lead from a number to a root. -/
inductive LeadsTo (t : ParentTable) : Nat → Nat → Prop
  /-- A root stands for itself. -/
  | root {r : Nat} (h : t[r]? = some r) : LeadsTo t r r
  /-- Any other number has the root of its parent. -/
  | step {i p r : Nat} (h : t[i]? = some p) (hne : p ≠ i) (hp : LeadsTo t p r) : LeadsTo t i r

/-- Parents lead from a number to a root in so many steps. -/
inductive LeadsIn (t : ParentTable) : Nat → Nat → Nat → Prop
  /-- From a root it takes none. -/
  | root {r : Nat} (h : t[r]? = some r) : LeadsIn t 0 r r
  /-- From any other number it takes one more than from its parent. -/
  | step {n i p r : Nat} (h : t[i]? = some p) (hne : p ≠ i) (hp : LeadsIn t n p r) :
    LeadsIn t (n + 1) i r

/-- Parents lead from every number to a root. -/
def IsForest (t : ParentTable) : Prop := ∀ i < t.length, ∃ r, LeadsTo t i r

namespace LeadsTo

theorem isRoot (h : LeadsTo t i r) : t[r]? = some r := by
  induction h with
  | root h => exact h
  | step _ _ _ ih => exact ih

theorem lt_length (h : LeadsTo t i r) : i < t.length := by
  cases h with
  | root h => exact (List.getElem?_eq_some_iff.mp h).1
  | step h _ _ => exact (List.getElem?_eq_some_iff.mp h).1

theorem root_lt_length (h : LeadsTo t i r) : r < t.length :=
  (List.getElem?_eq_some_iff.mp h.isRoot).1

/-- Parents lead to one root only. -/
theorem unique (h : LeadsTo t i r) (h' : LeadsTo t i s) : r = s := by
  induction h with
  | root h =>
    cases h' with
    | root _ => rfl
    | step hp hne _ => exact absurd (Option.some.inj (hp.symm.trans h)) hne
  | step h hne _ ih =>
    cases h' with
    | root hr => exact absurd (Option.some.inj (h.symm.trans hr)) hne
    | step hp _ hs =>
      obtain rfl := Option.some.inj (h.symm.trans hp)
      exact ih hs

theorem exists_leadsIn (h : LeadsTo t i r) : ∃ n, LeadsIn t n i r := by
  induction h with
  | root h => exact ⟨0, .root h⟩
  | step h hne _ ih =>
    obtain ⟨n, hn⟩ := ih
    exact ⟨n + 1, .step h hne hn⟩

end LeadsTo

namespace LeadsIn

variable {m n : Nat}

theorem leadsTo (h : LeadsIn t n i r) : LeadsTo t i r := by
  induction h with
  | root h => exact .root h
  | step h hne _ ih => exact .step h hne ih

/-- It always takes the same number of steps. -/
theorem unique (h : LeadsIn t m i r) (h' : LeadsIn t n i s) : m = n := by
  induction h generalizing n with
  | root h =>
    cases h' with
    | root _ => rfl
    | step hp hne _ => exact absurd (Option.some.inj (hp.symm.trans h)) hne
  | step h hne _ ih =>
    cases h' with
    | root hr => exact absurd (Option.some.inj (h.symm.trans hr)) hne
    | step hp _ hs =>
      obtain rfl := Option.some.inj (h.symm.trans hp)
      rw [ih hs]

/-- **A way to a root** meets no number twice, and all of them in fewer and fewer steps from it. -/
theorem exists_way (h : LeadsIn t n i r) : ∃ way : List Nat, way.length = n + 1 ∧ way.Nodup ∧
    ∀ j ∈ way, ∃ m ≤ n, LeadsIn t m j r := by
  induction h with
  | @root r h =>
    refine ⟨[r], rfl, List.nodup_singleton r, fun j hj => ⟨0, Nat.le_refl 0, ?_⟩⟩
    rw [List.mem_singleton.mp hj]
    exact .root h
  | @step n i p r h hne hp ih =>
    obtain ⟨way, hlength, hnodup, hway⟩ := ih
    have hi : LeadsIn t (n + 1) i r := .step h hne hp
    refine ⟨i :: way, by rw [List.length_cons, hlength],
      List.nodup_cons.mpr ⟨fun hmem => ?_, hnodup⟩, fun j hj => ?_⟩
    · obtain ⟨m, hle, hm⟩ := hway i hmem
      have heq := hm.unique hi
      omega
    · rcases List.mem_cons.mp hj with rfl | hj
      · exact ⟨n + 1, Nat.le_refl _, hi⟩
      · obtain ⟨m, hle, hm⟩ := hway j hj
        exact ⟨m, Nat.le_succ_of_le hle, hm⟩

/-- So it is shorter than the table. -/
theorem lt_length (h : LeadsIn t n i r) : n < t.length := by
  obtain ⟨way, hlength, hnodup, hway⟩ := h.exists_way
  have hsub : way ⊆ List.range t.length := fun j hj => by
    obtain ⟨m, -, hm⟩ := hway j hj
    exact List.mem_range.mpr hm.leadsTo.lt_length
  have hle := (List.subperm_of_subset hnodup hsub).length_le
  rw [hlength, List.length_range] at hle
  exact hle

end LeadsIn

theorem leadsTo_singletons_iff {n : Nat} : LeadsTo (singletons n) i r ↔ i < n ∧ r = i := by
  constructor
  · intro h
    have hlt : i < n := by simpa [singletons] using h.lt_length
    exact ⟨hlt, h.unique (.root (by simp [singletons, hlt]))⟩
  · rintro ⟨hlt, rfl⟩
    exact .root (by simp [singletons, hlt])

theorem isForest_singletons (n : Nat) : IsForest (singletons n) := fun i hi =>
  ⟨i, leadsTo_singletons_iff.mpr ⟨by simpa [singletons] using hi, rfl⟩⟩

/-- The roots of a forest as a function. -/
theorem IsForest.exists_root (h : IsForest t) :
    ∃ root : Nat → Nat, ∀ i < t.length, LeadsTo t i (root i) := by
  have htotal : ∀ i, ∃ r, i < t.length → LeadsTo t i r := fun i => by
    by_cases hi : i < t.length
    · obtain ⟨r, hr⟩ := h i hi
      exact ⟨r, fun _ => hr⟩
    · exact ⟨i, fun hlt => absurd hlt hi⟩
  choose root hroot using htotal
  exact ⟨root, hroot⟩

/-! ### Changing parents -/

/-- Pointing a number at its root changes no root. -/
theorem leadsTo_set_root_iff (h : LeadsTo t i r) (hne : i ≠ r) :
    LeadsTo (t.set i r) j s ↔ LeadsTo t j s := by
  have hroot : LeadsTo (t.set i r) r r := .root (by rw [List.getElem?_set_ne hne, h.isRoot])
  have hi : (t.set i r)[i]? = some r := List.getElem?_set_self h.lt_length
  constructor
  · intro hset
    induction hset with
    | root hj =>
      refine .root ?_
      rwa [List.getElem?_set_ne] at hj
      rintro rfl
      exact hne (Option.some.inj (hj.symm.trans hi))
    | @step j p s hj hp _ ih =>
      by_cases hij : i = j
      · subst hij
        obtain rfl := Option.some.inj (hi.symm.trans hj)
        exact ih.unique (.root h.isRoot) ▸ h
      · rw [List.getElem?_set_ne hij] at hj
        exact .step hj hp ih
  · intro ht
    induction ht with
    | @root s hs =>
      refine .root ?_
      rw [List.getElem?_set_ne, hs]
      rintro rfl
      exact hne ((LeadsTo.root hs).unique h)
    | @step j p s hj hp hs ih =>
      by_cases hij : i = j
      · subst hij
        obtain rfl := h.unique (.step hj hp hs)
        exact .step hi (Ne.symm hne) hroot
      · exact .step (by rw [List.getElem?_set_ne hij, hj]) hp ih

/-- Pointing one root at another gives all members of its set that root. -/
theorem leadsTo_set_of_isRoot_iff {a b : Nat} (ha : t[a]? = some a) (hb : t[b]? = some b)
    (hab : a ≠ b) : LeadsTo (t.set b a) j s ↔
      ∃ r, LeadsTo t j r ∧ s = if r = b then a else r := by
  have hroot : LeadsTo (t.set b a) a a := .root (by rw [List.getElem?_set_ne (Ne.symm hab), ha])
  have hset : (t.set b a)[b]? = some a :=
    List.getElem?_set_self (List.getElem?_eq_some_iff.mp hb).1
  constructor
  · intro h
    induction h with
    | @root s hs =>
      have hsb : s ≠ b := by
        rintro rfl
        exact hab (Option.some.inj (hset.symm.trans hs))
      rw [List.getElem?_set_ne (Ne.symm hsb)] at hs
      exact ⟨s, .root hs, (if_neg hsb).symm⟩
    | @step j p s hj hp _ ih =>
      obtain ⟨r, hr, rfl⟩ := ih
      by_cases hbj : b = j
      · subst hbj
        obtain rfl := Option.some.inj (hset.symm.trans hj)
        obtain rfl := hr.unique (.root ha)
        exact ⟨b, .root hb, by rw [if_neg hab, if_pos rfl]⟩
      · rw [List.getElem?_set_ne hbj] at hj
        exact ⟨r, .step hj hp hr, rfl⟩
  · rintro ⟨r, hr, rfl⟩
    induction hr with
    | @root r hr =>
      split
      · next h =>
        subst h
        exact .step hset hab hroot
      · next h => exact .root (by rw [List.getElem?_set_ne (Ne.symm h), hr])
    | @step j p r hj hp _ ih =>
      refine .step ?_ hp ih
      rw [List.getElem?_set_ne, hj]
      rintro rfl
      exact hp (Option.some.inj (hj.symm.trans hb))

/-! ### Calls -/

theorem findWithin_of_isRoot {steps : Nat} (h : t[i]? = some i) :
    (findWithin (steps + 1) i).run t = some (i, t) := by
  rw [findWithin]
  simp [parent, h]

theorem findWithin_of_ne {steps p : Nat} (h : t[i]? = some p) (hne : p ≠ i) :
    (findWithin (steps + 1) i).run t =
      ((findWithin steps p).run t).bind fun found => some (found.1, found.2.set i found.1) := by
  rw [findWithin]
  simp [parent, h, hne, setParent]

theorem exists_findWithin_eq {n steps : Nat} (h : LeadsIn t n i r) (hsteps : n < steps) :
    ∃ t', (findWithin steps i).run t = some (r, t') ∧
      t'.length = t.length ∧ ∀ j s, LeadsTo t' j s ↔ LeadsTo t j s := by
  induction h generalizing steps with
  | root h =>
    obtain ⟨steps, rfl⟩ := Nat.exists_eq_add_one.mpr (Nat.zero_lt_of_lt hsteps)
    exact ⟨t, findWithin_of_isRoot h, rfl, fun _ _ => Iff.rfl⟩
  | @step n i p r h hne hp ih =>
    obtain ⟨steps, rfl⟩ := Nat.exists_eq_add_one.mpr (Nat.zero_lt_of_lt hsteps)
    obtain ⟨t', hfind, hlength, hleads⟩ := ih (Nat.lt_of_succ_lt_succ hsteps)
    refine ⟨t'.set i r, by rw [findWithin_of_ne h hne, hfind, Option.bind_some],
      by rw [List.length_set, hlength], fun j s => ?_⟩
    have hi : LeadsTo t i r := .step h hne hp.leadsTo
    rw [leadsTo_set_root_iff ((hleads i r).mpr hi), hleads]
    rintro rfl
    exact hne (Option.some.inj (h.symm.trans hp.leadsTo.isRoot))

/-- **Looking up a number** ends at its root, and changes no root. -/
theorem exists_find_eq (h : LeadsTo t i r) : ∃ t', (find i).run t = some (r, t') ∧
    t'.length = t.length ∧ ∀ j s, LeadsTo t' j s ↔ LeadsTo t j s := by
  obtain ⟨n, hn⟩ := h.exists_leadsIn
  obtain ⟨t', hfind, hchanges⟩ := exists_findWithin_eq hn hn.lt_length
  exact ⟨t', by simpa [find] using hfind, hchanges⟩

theorem leadsTo_of_findWithin_eq {steps : Nat}
    (h : (findWithin steps i).run t = some (r, t')) : LeadsTo t i r := by
  induction steps generalizing i r t' with
  | zero => exact absurd h (Option.some_ne_none _).symm
  | succ steps ih =>
    cases hi : t[i]? with
    | none => simp [findWithin, parent, hi] at h
    | some p =>
      by_cases hp : p = i
      · subst hp
        have heq := (findWithin_of_isRoot hi).symm.trans h
        simp only [Option.some.injEq, Prod.mk.injEq] at heq
        exact heq.1 ▸ .root hi
      · rw [findWithin_of_ne hi hp] at h
        obtain ⟨⟨root, after⟩, hroot, heq⟩ := Option.bind_eq_some_iff.mp h
        simp only [Option.some.injEq, Prod.mk.injEq] at heq
        exact heq.1 ▸ .step hi hp (ih hroot)

/-- **Looking up a number** has an answer only if parents lead to a root. -/
theorem exists_find_eq_iff : (∃ t', (find i).run t = some (r, t')) ↔ LeadsTo t i r := by
  constructor
  · rintro ⟨t', h⟩
    have hwithin : (findWithin t.length i).run t = some (r, t') := by simpa [find] using h
    exact leadsTo_of_findWithin_eq hwithin
  · intro h
    obtain ⟨t', hfind, -⟩ := exists_find_eq h
    exact ⟨t', hfind⟩

/-- **Uniting two sets** gives the members of the second one the root of the first. -/
theorem exists_union_eq {a b ra rb : Nat} (ha : LeadsTo t a ra) (hb : LeadsTo t b rb) :
    ∃ t', (union a b).run t = some ((), t') ∧ t'.length = t.length ∧
      ∀ j s, LeadsTo t' j s ↔ ∃ r, LeadsTo t j r ∧ s = if r = rb then ra else r := by
  obtain ⟨t₁, hfind₁, hlength₁, hleads₁⟩ := exists_find_eq ha
  obtain ⟨t₂, hfind₂, hlength₂, hleads₂⟩ := exists_find_eq ((hleads₁ b rb).mpr hb)
  have hleads : ∀ j s, LeadsTo t₂ j s ↔ LeadsTo t j s := fun j s => by rw [hleads₂, hleads₁]
  by_cases hab : ra = rb
  · refine ⟨t₂, ?_, hlength₂.trans hlength₁, fun j s => ?_⟩
    · simp [union, hfind₁, hfind₂, hab]
    · rw [hleads]
      constructor
      · intro h
        refine ⟨s, h, ?_⟩
        split <;> simp_all
      · rintro ⟨r, hr, rfl⟩
        split
        · next h => exact (h.trans hab.symm) ▸ hr
        · exact hr
  · refine ⟨t₂.set rb ra, ?_, by rw [List.length_set, hlength₂, hlength₁], fun j s => ?_⟩
    · simp [union, hfind₁, hfind₂, hab, setParent]
    · rw [leadsTo_set_of_isRoot_iff ((hleads a ra).mpr ha).isRoot ((hleads b rb).mpr hb).isRoot hab]
      simp only [hleads]

/-- Looking up many numbers finds their roots, and changes no root. -/
theorem exists_mapM_find_eq {l : List Nat} {root : Nat → Nat}
    (h : ∀ i ∈ l, LeadsTo t i (root i)) : ∃ t', (l.mapM find).run t = some (l.map root, t') ∧
      t'.length = t.length ∧ ∀ j s, LeadsTo t' j s ↔ LeadsTo t j s := by
  induction l generalizing t with
  | nil => exact ⟨t, rfl, rfl, fun _ _ => Iff.rfl⟩
  | cons i l ih =>
    obtain ⟨t₁, hfind, hlength, hleads⟩ := exists_find_eq (h i (List.mem_cons_self ..))
    obtain ⟨t', hrest, hlength', hleads'⟩ := ih fun j hj =>
      (hleads j _).mpr (h j (List.mem_cons_of_mem _ hj))
    refine ⟨t', ?_, hlength'.trans hlength, fun j s => (hleads' j s).trans (hleads j s)⟩
    simp [List.mapM_cons, hfind, hrest]

theorem unionAll_nil : (unionAll []).run t = some ((), t) := rfl

theorem unionAll_cons {pair : Nat × Nat} {pairs : List (Nat × Nat)}
    (h : (union pair.1 pair.2).run t = some ((), t')) :
    (unionAll (pair :: pairs)).run t = (unionAll pairs).run t' := by
  simp [unionAll, h]

/-- Pairs that are listed in several lists are united list by list. -/
theorem forM_unionAll {α : Type} (l : List α) (pairs : α → List (Nat × Nat)) :
    (forM l fun a => unionAll (pairs a)) = unionAll (l.flatMap pairs) := by
  induction l with
  | nil => rfl
  | cons a l ih =>
    have happend : ∀ first : List (Nat × Nat),
        (do unionAll first; unionAll (l.flatMap pairs)) = unionAll (first ++ l.flatMap pairs) := by
      intro first
      induction first with
      | nil => rfl
      | cons pair first ih' =>
        simp only [unionAll, List.forM_cons, List.cons_append, bind_assoc] at ih' ⊢
        rw [ih']
    rw [List.forM_cons, List.flatMap_cons, ih, happend]

/-! ### Tables and disjoint sets -/

/-- A table is a forest with the same sets as disjoint sets. -/
structure Agrees (t : ParentTable) (sets : DisjointSets) : Prop where
  /-- Both are about the same numbers. -/
  length_eq : t.length = sets.parent.size
  /-- Looking up a number in the table ends. -/
  isForest : IsForest t
  /-- Two numbers have the same root in the table exactly when they have in the sets. -/
  eq_iff : ∀ {i j r s : Nat}, LeadsTo t i r → LeadsTo t j s →
    (r = s ↔ sets.root i = sets.root j)

namespace Agrees

variable {sets : DisjointSets}

theorem singletons (n : Nat) : Agrees (singletons n) (DisjointSets.singletons n) where
  length_eq := by simp [ParentTable.singletons, DisjointSets.singletons]
  isForest := isForest_singletons n
  eq_iff {i j r s} hi hj := by
    rw [DisjointSets.root_singletons, DisjointSets.root_singletons,
      (leadsTo_singletons_iff.mp hi).2, (leadsTo_singletons_iff.mp hj).2]

/-- **Uniting two sets** in both keeps the agreement, whichever roots are kept. -/
theorem exists_union_eq (h : Agrees t sets) {a b : Nat} (ha : a < t.length) (hb : b < t.length) :
    ∃ t', (union a b).run t = some ((), t') ∧ t'.length = t.length ∧
      Agrees t' (sets.union a b) := by
  obtain ⟨ra, hra⟩ := h.isForest a ha
  obtain ⟨rb, hrb⟩ := h.isForest b hb
  obtain ⟨t', hunion, hlength, hleads⟩ := ParentTable.exists_union_eq hra hrb
  refine ⟨t', hunion, hlength, ?_, fun i hi => ?_, fun {i j r s} hi hj => ?_⟩
  · rw [DisjointSets.size_union, hlength, h.length_eq]
  · obtain ⟨r, hr⟩ := h.isForest i (hlength ▸ hi)
    exact ⟨_, (hleads i _).mpr ⟨r, hr, rfl⟩⟩
  · obtain ⟨r, hr, rfl⟩ := (hleads i _).mp hi
    obtain ⟨s, hs, rfl⟩ := (hleads j _).mp hj
    have hsize : sets.parent.size = t.length := h.length_eq.symm
    rw [DisjointSets.root_union (hsize ▸ ha) (hsize ▸ hb),
      DisjointSets.root_union (hsize ▸ ha) (hsize ▸ hb)]
    -- Which of the four numbers share a set is the same in both.
    have hia := h.eq_iff hr hra
    have hib := h.eq_iff hr hrb
    have hja := h.eq_iff hs hra
    have hjb := h.eq_iff hs hrb
    have hij := h.eq_iff hr hs
    have hab := h.eq_iff hra hrb
    grind

/-- **Uniting many pairs** in both keeps the agreement. -/
theorem exists_unionAll_eq (h : Agrees t sets) {pairs : List (Nat × Nat)}
    (hlt : ∀ pair ∈ pairs, pair.1 < t.length ∧ pair.2 < t.length) :
    ∃ t', (unionAll pairs).run t = some ((), t') ∧ t'.length = t.length ∧
      Agrees t' (sets.unionAll pairs) := by
  induction pairs generalizing t sets with
  | nil => exact ⟨t, unionAll_nil, rfl, h⟩
  | cons pair pairs ih =>
    obtain ⟨ha, hb⟩ := hlt pair (List.mem_cons_self ..)
    obtain ⟨t₁, hunion, hlength, hagrees⟩ := h.exists_union_eq ha hb
    obtain ⟨t', hrest, hlength', hagrees'⟩ := ih hagrees fun pair' hmem =>
      hlength ▸ hlt pair' (List.mem_cons_of_mem _ hmem)
    exact ⟨t', (unionAll_cons hunion).trans hrest, hlength'.trans hlength, hagrees'⟩

end Agrees

/-- **Uniting pairs** and then looking up all numbers finds roots, which tell the sets apart. -/
theorem exists_roots_eq {n : Nat} {pairs : List (Nat × Nat)}
    (hlt : ∀ pair ∈ pairs, pair.1 < n ∧ pair.2 < n) :
    ∃ (root : Nat → Nat) (t t' : ParentTable),
      (unionAll pairs).run (singletons n) = some ((), t) ∧
      ((List.range n).mapM find).run t = some ((List.range n).map root, t') ∧
      (∀ i < n, root i < n) ∧
      ∀ i < n, ∀ j < n, (root i = root j ↔ ((DisjointSets.singletons n).unionAll pairs).root i =
        ((DisjointSets.singletons n).unionAll pairs).root j) := by
  have hlength : (singletons n).length = n := List.length_range
  obtain ⟨t, hunite, ht, hagrees⟩ := (Agrees.singletons n).exists_unionAll_eq
    fun pair hpair => hlength.symm ▸ hlt pair hpair
  obtain ⟨root, hroot⟩ := hagrees.isForest.exists_root
  rw [hlength] at ht
  rw [ht] at hroot
  have hrange : ∀ i ∈ List.range n, LeadsTo t i (root i) := fun i hi =>
    hroot i (List.mem_range.mp hi)
  obtain ⟨t', hfind, -, -⟩ := exists_mapM_find_eq hrange
  exact ⟨root, t, t', hunite, hfind, fun i hi => ht ▸ (hroot i hi).root_lt_length,
    fun i hi j hj => hagrees.eq_iff (hroot i hi) (hroot j hj)⟩

end ParentTable

end GraphGrammar
