import GraphGrammar.Proofs.Graph.ParentTable

/-!
# Sequences of lookups and unions

A lookup recurses through parents that it rewrites itself, and nothing in a table bounds the number
of its steps. Where parents lead to a root, it ends all the same, and a bound by the length of the
table makes no difference. Both kinds of calls keep parents leading to roots, so that any number of
calls can follow each other. A lookup leaves all roots alone, and so the sets depend on the pairs
that were united only.

## Main definitions

* `GraphGrammar.ParentTable.Climbs` — looking up a number without a bound on the steps.

## Main results

* `GraphGrammar.ParentTable.climbs_iff_find_eq` — the bound cuts no lookup short.
* `GraphGrammar.SetCall.exists_perform_eq`, `exists_performAll_eq` — one call, and many.
* `GraphGrammar.SetCall.performAll_connects_united` — what holds after any sequence of calls.
-/

namespace GraphGrammar

namespace ParentTable

variable {t t' : ParentTable} {i j r s : Nat}

/-! ### Lookups without a bound -/

/-- A number is looked up in the table `t` from parent to parent, however many steps that takes.
When the root was found, everything on the way becomes its child, and the answer is read off the
table that this leaves. -/
inductive Climbs (t : ParentTable) : Nat → Nat → ParentTable → Prop
  /-- A root is its own parent, and nothing changes. -/
  | root {r : Nat} (h : t[r]? = some r) : Climbs t r r t
  /-- Any other number becomes a child of what its parent was looked up as. -/
  | step {i p root r : Nat} {t' : ParentTable} (h : t[i]? = some p) (hne : p ≠ i)
    (hp : Climbs t p root t') (hread : (t'.set i root)[i]? = some r) : Climbs t i r (t'.set i root)

namespace Climbs

theorem leadsTo (h : Climbs t i r t') : LeadsTo t i r := by
  induction h with
  | root h => exact .root h
  | @step i p root r t' h hne _ hread ih =>
    rw [List.getElem?_set_self'] at hread
    obtain ⟨-, -, rfl⟩ := Option.map_eq_some_iff.mp hread
    exact .step h hne ih

/-- There is one answer at most. -/
theorem unique {t'' : ParentTable} (h : Climbs t i r t') (h' : Climbs t i s t'') :
    r = s ∧ t' = t'' := by
  induction h generalizing s t'' with
  | root h =>
    cases h' with
    | root _ => exact ⟨rfl, rfl⟩
    | step hp hne _ _ => exact absurd (Option.some.inj (hp.symm.trans h)) hne
  | step h hne _ hread ih =>
    cases h' with
    | root hr => exact absurd (Option.some.inj (h.symm.trans hr)) hne
    | step hp _ hs hread' =>
      obtain rfl := Option.some.inj (h.symm.trans hp)
      obtain ⟨rfl, rfl⟩ := ih hs
      exact ⟨Option.some.inj (hread.symm.trans hread'), rfl⟩

end Climbs

/-- As many steps as lead to a root are enough to find it. -/
theorem exists_climbs_findWithin_eq {n steps : Nat} (h : LeadsIn t n i r) (hsteps : n < steps) :
    ∃ t', Climbs t i r t' ∧ t'.length = t.length ∧ (findWithin steps i).run t = some (r, t') := by
  induction h generalizing steps with
  | root h =>
    obtain ⟨steps, rfl⟩ := Nat.exists_eq_add_one.mpr (Nat.zero_lt_of_lt hsteps)
    exact ⟨t, .root h, rfl, findWithin_of_isRoot h⟩
  | @step n i p r h hne hp ih =>
    obtain ⟨steps, rfl⟩ := Nat.exists_eq_add_one.mpr (Nat.zero_lt_of_lt hsteps)
    obtain ⟨t', hclimbs, hlength, hfind⟩ := ih (Nat.lt_of_succ_lt_succ hsteps)
    have hi : i < t'.length := hlength ▸ (LeadsTo.step h hne hp.leadsTo).lt_length
    exact ⟨t'.set i r, .step h hne hclimbs (List.getElem?_set_self hi),
      by rw [List.length_set, hlength], by rw [findWithin_of_ne h hne, hfind, Option.bind_some]⟩

/-- **A lookup without a bound** ends exactly if one with the bound does, with the same answer. -/
theorem climbs_iff_find_eq : Climbs t i r t' ↔ (find i).run t = some (r, t') := by
  have hends : LeadsTo t i r → ∃ t', Climbs t i r t' ∧ (find i).run t = some (r, t') := by
    intro h
    obtain ⟨n, hn⟩ := h.exists_leadsIn
    obtain ⟨t', hclimbs, -, hfind⟩ := exists_climbs_findWithin_eq hn hn.lt_length
    exact ⟨t', hclimbs, by simpa [find] using hfind⟩
  constructor
  · intro h
    obtain ⟨t₁, hclimbs, hfind⟩ := hends h.leadsTo
    obtain ⟨-, rfl⟩ := h.unique hclimbs
    exact hfind
  · intro h
    obtain ⟨t₁, hclimbs, hfind⟩ := hends (exists_find_eq_iff.mp ⟨t', h⟩)
    obtain ⟨-, rfl⟩ := Prod.mk.inj (Option.some.inj (h.symm.trans hfind))
    exact hclimbs

/-- What leaves all roots alone keeps the agreement. -/
theorem Agrees.of_leadsTo_iff {sets : DisjointSets} (h : Agrees t sets)
    (hlength : t'.length = t.length) (hleads : ∀ j s, LeadsTo t' j s ↔ LeadsTo t j s) :
    Agrees t' sets where
  length_eq := hlength.trans h.length_eq
  isForest i hi := by
    obtain ⟨r, hr⟩ := h.isForest i (hlength ▸ hi)
    exact ⟨r, (hleads i r).mpr hr⟩
  eq_iff hi hj := h.eq_iff ((hleads _ _).mp hi) ((hleads _ _).mp hj)

end ParentTable

namespace SetCall

open ParentTable

variable {t : ParentTable} {sets : DisjointSets}

/-- The pair that a call unites. -/
def united : SetCall → List (Nat × Nat)
  | find _ => []
  | union a b => [(a, b)]

theorem mem_flatMap_united {calls : List SetCall} {a b : Nat} :
    (a, b) ∈ calls.flatMap united ↔ union a b ∈ calls := by
  rw [List.mem_flatMap]
  constructor
  · rintro ⟨call, hmem, hpair⟩
    cases call with
    | find i => exact absurd hpair List.not_mem_nil
    | union a' b' =>
      obtain ⟨rfl, rfl⟩ := Prod.mk.inj (List.mem_singleton.mp hpair)
      exact hmem
  · exact fun hmem => ⟨_, hmem, List.mem_singleton.mpr rfl⟩

/-- **A call** on numbers of the table ends, and does what it says to the sets. -/
theorem exists_perform_eq (h : Agrees t sets) {call : SetCall}
    (hcall : ∀ i ∈ call.numbers, i < t.length) : ∃ answer t',
      call.perform.run t = some (answer, t') ∧ t'.length = t.length ∧
        Agrees t' (sets.unionAll call.united) := by
  cases call with
  | find i =>
    obtain ⟨r, hr⟩ := h.isForest i (hcall i (List.mem_singleton.mpr rfl))
    obtain ⟨t', hfind, hlength, hleads⟩ := exists_find_eq hr
    exact ⟨some r, t', by simp [perform, hfind], hlength, h.of_leadsTo_iff hlength hleads⟩
  | union a b =>
    obtain ⟨t', hunion, hlength, hagrees⟩ := h.exists_union_eq (hcall a (by simp [numbers]))
      (hcall b (by simp [numbers]))
    exact ⟨none, t', by simp [perform, hunion], hlength, hagrees⟩

/-- **Calls one after the other** end, and unite the pairs that they are to unite. -/
theorem exists_performAll_eq (h : Agrees t sets) {calls : List SetCall}
    (hcalls : ∀ call ∈ calls, ∀ i ∈ call.numbers, i < t.length) : ∃ answers t',
      (performAll calls).run t = some (answers, t') ∧ t'.length = t.length ∧
        Agrees t' (sets.unionAll (calls.flatMap united)) := by
  induction calls generalizing t sets with
  | nil => exact ⟨[], t, rfl, rfl, h⟩
  | cons call calls ih =>
    obtain ⟨hcall, hrest⟩ := List.forall_mem_cons.mp hcalls
    obtain ⟨answer, t₁, hperform, hlength, hagrees⟩ := exists_perform_eq h hcall
    obtain ⟨answers, t', hperformAll, hlength', hagrees'⟩ := ih hagrees (hlength.symm ▸ hrest)
    refine ⟨answer :: answers, t', ?_, hlength'.trans hlength, ?_⟩
    · rw [performAll] at hperformAll ⊢
      simp [List.mapM_cons, hperform, hperformAll]
    · rw [List.flatMap_cons, DisjointSets.unionAll, List.foldl_append]
      exact hagrees'

/-- **Any sequence of calls** on numbers below `n`, from the table in which every number stands for
itself, ends, and a lookup ends without the bound if and as it does with it. After the calls, every
number is looked up in finitely many steps. The answer is a root, and all numbers keep their roots.
Two numbers have the same root exactly when the pairs that were united so far connect them. -/
theorem performAll_connects_united {n : Nat} {calls : List SetCall}
    (hcalls : ∀ call ∈ calls, ∀ i ∈ call.numbers, i < n) :
    (∀ t i r t', Climbs t i r t' ↔ (ParentTable.find i).run t = some (r, t')) ∧
    ∃ answers t, (performAll calls).run (singletons n) = some (answers, t) ∧
      (∀ i < n, ∃ r t', Climbs t i r t' ∧ t[r]? = some r ∧ t'[r]? = some r ∧
        ∀ j s, LeadsTo t' j s ↔ LeadsTo t j s) ∧
      ∀ i < n, ∀ j < n, (∃ r t₁ t₂, Climbs t i r t₁ ∧ Climbs t j r t₂) ↔
        Relation.EqvGen (fun a b => union a b ∈ calls) i j := by
  have hlength : (singletons n).length = n := List.length_range
  obtain ⟨answers, t, hperform, ht, hagrees⟩ := exists_performAll_eq (Agrees.singletons n)
    (hlength.symm ▸ hcalls)
  rw [hlength] at ht
  have hlookup : ∀ i < n, ∃ r t', LeadsTo t i r ∧ Climbs t i r t' ∧
      ∀ j s, LeadsTo t' j s ↔ LeadsTo t j s := fun i hi => by
    obtain ⟨r, hr⟩ := hagrees.isForest i (ht.symm ▸ hi)
    obtain ⟨t', hfind, -, hleads⟩ := exists_find_eq hr
    exact ⟨r, t', hr, climbs_iff_find_eq.mpr hfind, hleads⟩
  refine ⟨fun _ _ _ _ => climbs_iff_find_eq, answers, t, hperform, fun i hi => ?_,
    fun i hi j hj => ?_⟩
  · obtain ⟨r, t', hr, hclimbs, hleads⟩ := hlookup i hi
    exact ⟨r, t', hclimbs, hr.isRoot, ((hleads i r).mpr hr).isRoot, hleads⟩
  · obtain ⟨r, t₁, hr, hclimbs, -⟩ := hlookup i hi
    obtain ⟨s, t₂, hs, hclimbs', -⟩ := hlookup j hj
    have hbelow : ∀ pair ∈ calls.flatMap united, pair.1 < n ∧ pair.2 < n := fun pair hpair => by
      have hmem := hcalls _ (mem_flatMap_united.mp hpair)
      exact ⟨hmem pair.1 (by simp [numbers]), hmem pair.2 (by simp [numbers])⟩
    have hsame : (∃ q t₁ t₂, Climbs t i q t₁ ∧ Climbs t j q t₂) ↔ r = s := by
      constructor
      · rintro ⟨q, _, _, hi, hj⟩
        exact (hr.unique hi.leadsTo).trans (hs.unique hj.leadsTo).symm
      · rintro rfl
        exact ⟨r, t₁, t₂, hclimbs, hclimbs'⟩
    rw [hsame, hagrees.eq_iff hr hs, DisjointSets.root_unionAll_singletons_iff hbelow]
    simp only [mem_flatMap_united]

/-- Three numbers are united, and the last one is looked up. -/
def uniteThree : List SetCall := [.union 2 3, .union 1 2, .find 3]

/-- The lookup points the last number at the root, and the number `0` stays apart. -/
theorem performAll_connects_united_uniteThree :
    (∀ call ∈ uniteThree, ∀ i ∈ call.numbers, i < 4) ∧
    (performAll uniteThree).run (singletons 4) = some ([none, none, some 1], [0, 1, 1, 1]) ∧
    Climbs [0, 1, 1, 1] 3 1 [0, 1, 1, 1] ∧
    Relation.EqvGen (fun a b => union a b ∈ uniteThree) 3 1 ∧
    ¬Relation.EqvGen (fun a b => union a b ∈ uniteThree) 0 3 := by
  have hcalls : ∀ call ∈ uniteThree, ∀ i ∈ call.numbers, i < 4 := by decide
  have hrun : (performAll uniteThree).run (singletons 4) =
      some ([none, none, some 1], [0, 1, 1, 1]) := by decide
  obtain ⟨hclimbs, answers, t, hperform, -, hconnected⟩ := performAll_connects_united hcalls
  obtain ⟨-, rfl⟩ := Prod.mk.inj (Option.some.inj (hperform.symm.trans hrun))
  refine ⟨hcalls, hrun, (hclimbs _ _ _ _).mpr (by decide), ?_, fun h => ?_⟩
  · refine (hconnected 3 (by decide) 1 (by decide)).mp ⟨1, [0, 1, 1, 1], [0, 1, 1, 1], ?_, ?_⟩
    · exact (hclimbs _ _ _ _).mpr (by decide)
    · exact (hclimbs _ _ _ _).mpr (by decide)
  · obtain ⟨r, t₁, t₂, hzero, hthree⟩ := (hconnected 0 (by decide) 3 (by decide)).mpr h
    have hr : r = 0 := (hzero.unique (Climbs.root rfl)).1
    have hr' : r = 1 := (hthree.unique ((hclimbs _ 3 1 [0, 1, 1, 1]).mpr (by decide))).1
    omega

end SetCall

end GraphGrammar
