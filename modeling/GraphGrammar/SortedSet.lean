/-!
# Finite sets as ascending lists

A finite set of labels or of node indices is kept as the strictly ascending list of its members.
Two sets with the same members are then the same value, and writing a set out needs no choice of
order.

## Main definitions

* `GraphGrammar.SortedSet` — a strictly ascending list.
* `GraphGrammar.SortedSet.insert`, `GraphGrammar.SortedSet.erase`, `GraphGrammar.SortedSet.ofList`,
  `GraphGrammar.SortedSet.map`.
-/

namespace GraphGrammar

/-- Texts are ordered by their characters from the first on, which is transitive. -/
instance instTransStringLt : Trans (α := String) (· < ·) (· < ·) (· < ·) := ⟨String.lt_trans⟩

/-- A finite set, stored as the strictly ascending list of its members. -/
structure SortedSet (α : Type) [LT α] where
  /-- The members in ascending order. -/
  toList : List α
  /-- Every member is smaller than all later ones. -/
  ascending : toList.Pairwise (· < ·)
deriving DecidableEq

namespace SortedSet

variable {α : Type} [LT α]

/-- The set without members. -/
def empty : SortedSet α := ⟨[], List.Pairwise.nil⟩

instance : EmptyCollection (SortedSet α) := ⟨empty⟩

/-- Whether the set has no member. -/
def isEmpty (s : SortedSet α) : Bool := s.toList.isEmpty

/-- Whether `a` is a member. -/
def contains [BEq α] (s : SortedSet α) (a : α) : Bool := s.toList.contains a

/-- The set without `a`. -/
def erase [BEq α] (a : α) (s : SortedSet α) : SortedSet α :=
  ⟨s.toList.filter (· != a), s.ascending.filter _⟩

variable [DecidableLT α]

/-- The ascending list `l` with `a` at its place; a member that is there already is kept. -/
def insertInto (a : α) : List α → List α
  | [] => [a]
  | b :: l => if a < b then a :: b :: l else if b < a then b :: insertInto a l else b :: l

theorem mem_of_mem_insertInto {a x : α} {l : List α} (h : x ∈ insertInto a l) : x = a ∨ x ∈ l := by
  induction l with
  | nil => simpa [insertInto] using h
  | cons b l ih =>
    rw [insertInto] at h
    split at h
    · simpa using h
    · split at h
      · rcases List.mem_cons.mp h with rfl | h
        · exact Or.inr (List.mem_cons_self ..)
        · exact (ih h).imp id (List.mem_cons_of_mem _)
      · exact Or.inr h

/-- Inserting keeps an ascending list ascending. -/
theorem pairwise_insertInto [Trans (α := α) (· < ·) (· < ·) (· < ·)] (a : α) {l : List α}
    (h : l.Pairwise (· < ·)) : (insertInto a l).Pairwise (· < ·) := by
  induction l with
  | nil => simp [insertInto]
  | cons b l ih =>
    obtain ⟨hb, hl⟩ := List.pairwise_cons.mp h
    rw [insertInto]
    split
    · next hab =>
      refine List.pairwise_cons.mpr ⟨fun x hx => ?_, h⟩
      rcases List.mem_cons.mp hx with rfl | hx
      · exact hab
      · exact Trans.trans hab (hb x hx)
    · split
      · next hba =>
        refine List.pairwise_cons.mpr ⟨fun x hx => ?_, ih hl⟩
        rcases mem_of_mem_insertInto hx with rfl | hx
        · exact hba
        · exact hb x hx
      · exact h

variable [Trans (α := α) (· < ·) (· < ·) (· < ·)]

/-- The set with `a` added. -/
def insert (a : α) (s : SortedSet α) : SortedSet α :=
  ⟨insertInto a s.toList, pairwise_insertInto a s.ascending⟩

/-- The set of the members of a list. -/
def ofList (l : List α) : SortedSet α := l.foldl (fun s a => s.insert a) empty

/-- The set of the images of the members. -/
def map {β : Type} [LT β] [DecidableLT β] [Trans (α := β) (· < ·) (· < ·) (· < ·)]
    (f : α → β) (s : SortedSet α) : SortedSet β :=
  ofList (s.toList.map f)

end SortedSet

end GraphGrammar
