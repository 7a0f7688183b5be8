/-!
# Symmetry orders

A symmetric pattern occurs several times at one place: with `m` also `m` after each automorphism of
the pattern. A symmetry order admits, of such matches, those that are lexicographically smallest
among their comparisons. A partial mapping is rejected only when every completion would be.

## Main definitions

* `GraphGrammar.SymmetryOrder`, `GraphGrammar.SymmetryOrder.ofPermutations`.
* `GraphGrammar.SymmetryOrder.admits`, `GraphGrammar.SymmetryOrder.isLeast`.
-/

namespace GraphGrammar

/-- Permutations of the nodes of a pattern, with which matches are compared. -/
structure SymmetryOrder where
  /-- The number of nodes of the pattern. -/
  size : Nat
  /-- The permutations; each lists the image of every node. -/
  permutations : List (List Nat)
deriving DecidableEq

namespace SymmetryOrder

/-- The order that admits every match. -/
def trivial (size : Nat) : SymmetryOrder := ⟨size, []⟩

/-- The order of the given permutations. Lists of a wrong length and the identity are left out. -/
def ofPermutations (size : Nat) (permutations : List (List Nat)) : SymmetryOrder :=
  ⟨size, permutations.filter fun p => p.length == size && p != List.range p.length⟩

/-- Whether the order admits every match. -/
def isTrivial (o : SymmetryOrder) : Bool := o.permutations.isEmpty

/-- Whether the images of the first components are lexicographically at most those of the second
components. The comparison is undecided, and passes, where an image is missing. -/
def notAbove (image : Nat → Option Nat) : List (Nat × Nat) → Bool
  | [] => true
  | (v, w) :: rest =>
    match image v, image w with
    | some a, some b => if a < b then true else if b < a then false else notAbove image rest
    | _, _ => true

/-- Whether a possibly partial mapping may still grow into an admitted match. -/
def admits (o : SymmetryOrder) (image : Nat → Option Nat) : Bool :=
  o.permutations.all fun p => notAbove image (p.zipIdx.map Prod.swap)

/-- Whether a match is admitted. -/
def isLeast (o : SymmetryOrder) (images : List Nat) : Bool := o.admits fun v => images[v]?

end SymmetryOrder

end GraphGrammar
