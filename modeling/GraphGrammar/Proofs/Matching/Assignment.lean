import Mathlib.Data.List.FinRange
import Mathlib.Data.List.Forall2
import Mathlib.Data.List.Perm.Subperm
import GraphGrammar.Pattern.Label

/-!
# Labels given places of their own

`GraphGrammar.labelsFit` compares numbers: there are enough labels in all, and enough of each label
that is required literally. This file shows that it decides the question behind it, whether the
required labels can be given distinct places among the available ones. Literal labels take their
own copies; what is then left over is taken by the wildcards, in any order.

## Main definitions

* `GraphGrammar.Assignable` — labels given distinct places that hold labels they admit.

## Main results

* `GraphGrammar.assignable_iff_labelsFit` — the comparison of numbers decides it.
* `GraphGrammar.eq_of_labelFits_of_perm` — where all labels are given, each is given to itself.
-/

namespace GraphGrammar

variable {wildcard : Option String} {required available : List String}

/-- The labels `required` can be given distinct places among the labels `available`, such that
every one admits the label at its place. -/
def Assignable (wildcard : Option String) (required available : List String) : Prop :=
  ∃ place : Fin required.length → Fin available.length, Function.Injective place ∧
    ∀ i, labelFits wildcard required[i] available[place i] = true

/-- No labels ask for a place. -/
theorem assignable_nil : Assignable wildcard [] available :=
  ⟨fun i => i.elim0, fun i => i.elim0, fun i => i.elim0⟩

@[simp]
theorem labelFits_self (wildcard : Option String) (l : String) :
    labelFits wildcard l l = true := by
  simp [labelFits]

theorem labelFits_of_wildcard {l : String} (h : wildcard = some l) (found : String) :
    labelFits wildcard l found = true := by
  simp [labelFits, h]

theorem eq_of_labelFits {l found : String} (h : labelFits wildcard l found = true)
    (hl : wildcard ≠ some l) : l = found := by
  simpa [labelFits, hl] using h

/-- When labels are given to each other so that every one is given once, each is given to itself:
a wildcard that takes another label leaves a wildcard to a label that does not admit it. -/
theorem eq_of_labelFits_of_perm {given : List (String × String)}
    (hfits : ∀ p ∈ given, labelFits wildcard p.1 p.2 = true)
    (hperm : (given.map Prod.fst).Perm (given.map Prod.snd)) : ∀ p ∈ given, p.1 = p.2 := by
  intro p hp
  by_contra hne
  have hwild : wildcard = some p.1 := by
    by_contra hliteral
    exact hne (eq_of_labelFits (hfits p hp) hliteral)
  -- As only wildcards admit the wildcard, one more of them takes a label than is taken by one.
  have hserved : ∀ q ∈ given, q.2 = p.1 → q.1 = p.1 := by
    intro q hq hq2
    by_contra hq1
    have hliteral : wildcard ≠ some q.1 := fun heq => hq1 (Option.some.inj (heq.symm.trans hwild))
    exact hq1 ((eq_of_labelFits (hfits q hq) hliteral).trans hq2)
  obtain ⟨before, after, rfl⟩ := List.append_of_mem hp
  have hle : ∀ part ⊆ before ++ p :: after,
      part.countP (fun q => q.2 == p.1) ≤ part.countP fun q => q.1 == p.1 := by
    intro part hpart
    refine List.countP_mono_left fun q hq hq2 => ?_
    exact beq_iff_eq.mpr (hserved q (hpart hq) (eq_of_beq hq2))
  have hbefore := hle before fun q hq => List.mem_append_left _ hq
  have hafter := hle after fun q hq => List.mem_append_right _ (List.mem_cons_of_mem _ hq)
  have hcount := hperm.count_eq p.1
  have hp2 : (p.2 == p.1) = false := beq_false_of_ne (Ne.symm hne)
  simp only [List.count_eq_countP, List.countP_map, List.countP_append, List.countP_cons,
    Function.comp_def, beq_self_eq_true, hp2, if_true, Bool.false_eq_true, if_false] at hcount
  omega

/-! ### Places as a choice of available labels -/

/-- An assignment of places chooses, for the required labels in order, available labels of which
none is chosen more often than it is there. -/
theorem Assignable.exists_subperm (h : Assignable wildcard required available) :
    ∃ chosen, List.Forall₂ (fun l found => labelFits wildcard l found = true) required chosen ∧
      chosen.Subperm available := by
  obtain ⟨place, hinj, hfits⟩ := h
  refine ⟨List.ofFn fun i => available.get (place i), ?_, ?_⟩
  · refine List.forall₂_iff_get.mpr ⟨by simp, fun i hi hi' => ?_⟩
    simpa using hfits ⟨i, hi⟩
  · have hplaces : (List.ofFn place).Subperm (List.finRange available.length) :=
      (List.nodup_ofFn.mpr hinj).subperm fun i _ => List.mem_finRange i
    obtain ⟨s, hs, hsub⟩ := hplaces
    refine ⟨s.map available.get, ?_, ?_⟩
    · have hmap := hs.map available.get
      rwa [List.map_ofFn] at hmap
    · have hmap := hsub.map available.get
      rwa [List.map_get_finRange] at hmap

/-- A choice of available labels, none more often than it is there, can be made at distinct
places. -/
theorem exists_places_of_subperm {α : Type*} {chosen l : List α} (h : chosen.Subperm l) :
    ∃ places : List (Fin l.length), places.Nodup ∧ chosen = places.map l.get := by
  obtain ⟨s, hs, hsub⟩ := h
  rw [← List.map_get_finRange l] at hsub
  obtain ⟨places, hplaces, rfl⟩ := List.sublist_map_iff.mp hsub
  have hs' : List.Forall₂ (fun a i => a = l.get i) (places.map l.get) places := by
    rw [List.forall₂_map_left_iff, List.forall₂_same]
    exact fun _ _ => rfl
  obtain ⟨places', hforall, hperm⟩ := List.perm_comp_forall₂ hs.symm hs'
  refine ⟨places', hperm.nodup_iff.mpr (hplaces.nodup (List.nodup_finRange _)), ?_⟩
  rw [← List.forall₂_eq_eq_eq, List.forall₂_map_right_iff]
  exact hforall

theorem assignable_of_subperm {chosen : List String}
    (hfits : List.Forall₂ (fun l found => labelFits wildcard l found = true) required chosen)
    (hsub : chosen.Subperm available) : Assignable wildcard required available := by
  obtain ⟨places, hnodup, rfl⟩ := exists_places_of_subperm hsub
  have hlen : required.length = places.length := by simpa using hfits.length_eq
  refine ⟨fun i => places.get (i.cast hlen), fun i j hij => ?_, fun i => ?_⟩
  · simpa using List.nodup_iff_injective_get.mp hnodup hij
  · have := (List.forall₂_iff_get.mp hfits).2 i i.2 (by simp [← hlen])
    simpa using this

/-! ### The comparison of numbers -/

theorem labelsFit_iff :
    labelsFit wildcard required available = true ↔ required.length ≤ available.length ∧
      ∀ l ∈ required, wildcard = some l ∨ required.count l ≤ available.count l := by
  simp [labelsFit]

theorem labelsFit_self (wildcard : Option String) (labels : List String) :
    labelsFit wildcard labels labels = true :=
  labelsFit_iff.mpr ⟨Nat.le_refl _, fun _ _ => .inr (Nat.le_refl _)⟩

/-- A literal label is chosen at least as often as it is required. -/
theorem count_le_count_of_forall₂ {chosen : List String} {l : String} (hl : wildcard ≠ some l)
    (h : List.Forall₂ (fun l found => labelFits wildcard l found = true) required chosen) :
    required.count l ≤ chosen.count l := by
  induction h with
  | nil => exact Nat.le_refl _
  | @cons a b _ _ hab _ ih =>
    simp only [List.count_cons]
    by_cases ha : a = l
    · subst ha
      have hb := eq_of_labelFits hab hl
      simpa [← hb] using ih
    · have : (a == l) = false := beq_false_of_ne ha
      simp only [this, Bool.false_eq_true, if_false]
      omega

theorem labelsFit_of_subperm {chosen : List String}
    (hfits : List.Forall₂ (fun l found => labelFits wildcard l found = true) required chosen)
    (hsub : chosen.Subperm available) : labelsFit wildcard required available = true := by
  rw [labelsFit_iff]
  refine ⟨hfits.length_eq ▸ hsub.length_le, fun l _ => ?_⟩
  by_cases hl : wildcard = some l
  · exact Or.inl hl
  · exact Or.inr ((count_le_count_of_forall₂ hl hfits).trans (hsub.count_le l))

/-- When the numbers suffice, the literal labels choose their own copies, and the wildcards choose
among the labels that are left over. -/
theorem exists_subperm_of_labelsFit (h : labelsFit wildcard required available = true) :
    ∃ chosen, List.Forall₂ (fun l found => labelFits wildcard l found = true) required chosen ∧
      chosen.Subperm available := by
  obtain ⟨hlen, hcount⟩ := labelsFit_iff.mp h
  let literal := required.filter fun l => !(wildcard == some l)
  let wild := required.filter fun l => !!(wildcard == some l)
  have hperm : (literal ++ wild).Perm required := List.filter_append_perm _ required
  have hliteral : literal.Subperm available := by
    refine List.subperm_ext_iff.mpr fun l hl => ?_
    obtain ⟨hmem, hl⟩ := List.mem_filter.mp hl
    have hcount_literal : literal.count l = required.count l := by
      rw [List.count_filter (p := fun l => !(wildcard == some l)) hl]
    rw [hcount_literal]
    exact (hcount l hmem).resolve_left (by simpa using hl)
  obtain ⟨own, hown, hsub⟩ := hliteral
  obtain ⟨rest, hrest⟩ : ∃ rest, available.Perm (literal ++ rest) := by
    obtain ⟨rest, hrest⟩ := hsub.exists_perm_append
    exact ⟨rest, hrest.trans (hown.append_right rest)⟩
  have hrest_len : wild.length ≤ rest.length := by
    have h1 := hrest.length_eq
    have h2 := hperm.length_eq
    rw [List.length_append] at h1 h2
    omega
  have hfits : List.Forall₂ (fun l found => labelFits wildcard l found = true) (literal ++ wild)
      (literal ++ rest.take wild.length) := by
    refine List.rel_append (List.forall₂_same.mpr fun l _ => labelFits_self _ l) ?_
    refine List.forall₂_iff_zip.mpr ⟨by simpa using hrest_len, fun {l found} hl => ?_⟩
    have hw := (List.mem_filter.mp (List.of_mem_zip hl).1).2
    exact labelFits_of_wildcard (by simpa using hw) found
  obtain ⟨chosen, hchosen, hchosen_perm⟩ := List.perm_comp_forall₂ hperm.symm hfits
  refine ⟨chosen, hchosen, hchosen_perm.subperm.trans ?_⟩
  refine List.Subperm.trans ?_ hrest.symm.subperm
  exact ((List.take_sublist _ rest).append_left literal).subperm

/-- **The comparison of numbers decides whether places can be given.** -/
theorem assignable_iff_labelsFit :
    Assignable wildcard required available ↔ labelsFit wildcard required available = true := by
  constructor
  · intro h
    obtain ⟨chosen, hfits, hsub⟩ := h.exists_subperm
    exact labelsFit_of_subperm hfits hsub
  · intro h
    obtain ⟨chosen, hfits, hsub⟩ := exists_subperm_of_labelsFit h
    exact assignable_of_subperm hfits hsub

end GraphGrammar
