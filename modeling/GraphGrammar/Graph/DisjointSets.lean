/-!
# Disjoint sets

A partition of the numbers below `n` into sets, kept as a forest: every number points at its
parent, which is never larger, and the number at the top of a tree stands for its set. Hence the
way to the top always ends, and the number that stands for a set is its smallest member. Looking up
a number points everything on its way directly at the top.

## Main definitions

* `GraphGrammar.DisjointSets` — the forest.
* `GraphGrammar.DisjointSets.root`, `find`, `union`.
-/

namespace GraphGrammar

/-- A forest on the numbers below its size, in which no parent is larger than its child. -/
structure DisjointSets where
  /-- The parent of each number; a root is its own parent. -/
  parent : Array Nat
  /-- Parents are never larger. -/
  parent_le : ∀ (i : Nat) (h : i < parent.size), parent[i] ≤ i

namespace DisjointSets

/-- Every number below `n` in a set of its own. -/
def singletons (n : Nat) : DisjointSets := ⟨Array.range n, by simp⟩

/-- The root of the tree of a number. -/
def root (s : DisjointSets) (i : Nat) : Nat :=
  if h : i < s.parent.size then
    if s.parent[i] < i then s.root s.parent[i] else i
  else i
termination_by i

theorem root_le (s : DisjointSets) (i : Nat) : s.root i ≤ i := by
  fun_induction root s i with
  | case1 i h hlt ih => exact Nat.le_trans ih (Nat.le_of_lt hlt)
  | case2 | case3 => exact Nat.le_refl _

/-- The forest with a new parent for `i`. -/
def redirect (s : DisjointSets) (i p : Nat) (h : p ≤ i) : DisjointSets where
  parent := s.parent.setIfInBounds i p
  parent_le j hj := by
    rw [Array.getElem_setIfInBounds]
    split
    · next hij => exact hij ▸ h
    · exact s.parent_le j (by simpa using hj)

/-- The forest with everything on the way from `i` to its root pointing at the root. -/
def compress (s : DisjointSets) (i : Nat) : DisjointSets :=
  if h : i < s.parent.size then
    if s.parent[i] < i then (s.compress s.parent[i]).redirect i (s.root i) (s.root_le i) else s
  else s
termination_by i

/-- The root of a number, and the forest with its way compressed. -/
def find (s : DisjointSets) (i : Nat) : DisjointSets × Nat := (s.compress i, s.root i)

/-- The forest with the sets of two numbers united: the larger root points at the smaller. -/
def union (s : DisjointSets) (a b : Nat) : DisjointSets :=
  let (s, ra) := s.find a
  let (s, rb) := s.find b
  if h : ra ≤ rb then s.redirect rb ra h else s.redirect ra rb (Nat.le_of_not_le h)

end DisjointSets

end GraphGrammar
