import Mathlib.Data.List.Sort
import GraphGrammar.SortedSet

/-!
# Members of sets kept as ascending lists

## Main results

* `GraphGrammar.SortedSet.mem_ofList` — the members of a list, and no others.
* `GraphGrammar.SortedSet.ofList_toList` — a set is the set of its members.
* `GraphGrammar.SortedSet.contains_map`, `GraphGrammar.SortedSet.map_inj` — the image under an
  injective map.
-/

namespace GraphGrammar

namespace SortedSet

theorem eq_of_toList_eq {α : Type} [LT α] {s s' : SortedSet α} (h : s.toList = s'.toList) :
    s = s' := by
  cases s
  cases s'
  cases h
  rfl

/-- Sets with the same members are the same. -/
theorem eq_of_mem_iff {α : Type} [LT α] [Std.Irrefl (α := α) (· < ·)]
    [Std.Antisymm (α := α) (· < ·)] {s s' : SortedSet α}
    (h : ∀ x, x ∈ s.toList ↔ x ∈ s'.toList) : s = s' :=
  eq_of_toList_eq (List.Pairwise.eq_of_mem_iff s.ascending s'.ascending h)

theorem mem_erase {α : Type} [LT α] [BEq α] [LawfulBEq α] {a x : α} {s : SortedSet α} :
    x ∈ (s.erase a).toList ↔ x ≠ a ∧ x ∈ s.toList := by
  rw [erase, List.mem_filter, bne_iff_ne, and_comm]

variable {α : Type} [LT α] [DecidableLT α] [Std.Trichotomous (α := α) (· < ·)]

theorem mem_insertInto {a x : α} {l : List α} : x ∈ insertInto a l ↔ x = a ∨ x ∈ l := by
  refine ⟨mem_of_mem_insertInto, fun h => ?_⟩
  induction l with
  | nil => simpa [insertInto] using h
  | cons b l ih =>
    rw [insertInto]
    split
    · simpa using h
    · next hab =>
      split
      · rcases h with h | h
        · exact List.mem_cons_of_mem _ (ih (Or.inl h))
        · rcases List.mem_cons.mp h with rfl | h
          · exact List.mem_cons_self ..
          · exact List.mem_cons_of_mem _ (ih (Or.inr h))
      · next hba =>
        have : a = b := Std.Trichotomous.trichotomous a b hab hba
        rcases h with rfl | h
        · exact this ▸ List.mem_cons_self ..
        · exact h

variable [Trans (α := α) (· < ·) (· < ·) (· < ·)]

theorem mem_insert {a x : α} {s : SortedSet α} :
    x ∈ (s.insert a).toList ↔ x = a ∨ x ∈ s.toList := mem_insertInto

@[simp]
theorem mem_ofList {x : α} {l : List α} : x ∈ (ofList l).toList ↔ x ∈ l := by
  have key : ∀ (l : List α) (s : SortedSet α),
      x ∈ (l.foldl (fun s a => s.insert a) s).toList ↔ x ∈ s.toList ∨ x ∈ l := by
    intro l
    induction l with
    | nil => simp
    | cons a l ih =>
      intro s
      rw [List.foldl_cons, ih, mem_insert, List.mem_cons]
      rw [or_assoc, or_left_comm]
  rw [ofList, key]
  simp [empty]

/-- The set of the members of a set is this set. -/
theorem ofList_toList [Std.Irrefl (α := α) (· < ·)] [Std.Antisymm (α := α) (· < ·)]
    (s : SortedSet α) : ofList s.toList = s :=
  eq_of_mem_iff fun _ => mem_ofList

theorem mem_map {γ : Type} [LT γ] {f : γ → α} {s : SortedSet γ} {y : α} :
    y ∈ (s.map f).toList ↔ ∃ x ∈ s.toList, f x = y := by
  rw [map, mem_ofList, List.mem_map]

/-- An injective map keeps members apart. -/
theorem contains_map {f : Nat → Nat} (hf : ∀ {u v : Nat}, f u = f v → u = v) (s : SortedSet Nat)
    (v : Nat) : (s.map f).contains (f v) = s.contains v := by
  rw [Bool.eq_iff_iff, contains, contains, List.contains_iff_mem, List.contains_iff_mem, mem_map]
  constructor
  · rintro ⟨u, hu, heq⟩
    exact hf heq ▸ hu
  · exact fun hv => ⟨v, hv, rfl⟩

/-- An injective map keeps sets apart. -/
theorem map_inj {f : Nat → Nat} (hf : ∀ {u v : Nat}, f u = f v → u = v) {s s' : SortedSet Nat}
    (h : s.map f = s'.map f) : s = s' := by
  refine eq_of_mem_iff fun v => ?_
  have hv := contains_map hf s v
  rw [h, contains_map hf, contains, contains] at hv
  rw [← List.contains_iff_mem, ← List.contains_iff_mem, hv]

end SortedSet

end GraphGrammar
