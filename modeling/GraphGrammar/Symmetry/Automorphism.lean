import GraphGrammar.Graph.DisjointSets
import GraphGrammar.Search.Config
import GraphGrammar.Search.Backtracking

/-!
# Automorphisms of patterns

An automorphism of a pattern is a match of its graph in itself, labels taken literally, that sends
the set of constraints to itself. The search for them ends when more were found than a limit allows,
so that a complete list can be told from a cut one.

## Main definitions

* `GraphGrammar.Automorphisms` and `GraphGrammar.Pattern.automorphisms`.
* `GraphGrammar.Automorphisms.orbitSizes`, `GraphGrammar.Automorphisms.orbitReport`.
* `GraphGrammar.Pattern.symmetryOrder` — the order that a search uses.
-/

namespace GraphGrammar

/-- Automorphisms of a pattern, the identity among them. -/
structure Automorphisms where
  /-- The number of nodes of the pattern. -/
  size : Nat
  /-- The automorphisms in ascending order; each lists the image of every node. -/
  permutations : List (List Nat)
  /-- Whether there are more. -/
  truncated : Bool
deriving DecidableEq

namespace Pattern

/-- Whether a permutation of the nodes sends the set of constraints to itself. -/
def fixesConstraints (p : Pattern) (perm : List Nat) : Bool :=
  p.constraints.all fun c => p.constraints.contains (c.permute perm)

/-- Keeps the automorphisms among the matches of a pattern in itself, apart from the identity, until
there are more than `limit`. -/
def keepAutomorphisms (p : Pattern) (limit : Nat) : Listener (List (List Nat)) := fun found hit =>
  let perm := hit.occurrence.images
  if perm == List.range perm.length || !p.fixesConstraints perm then (found, .proceed)
  else (found ++ [perm], if limit < found.length + 1 then .stop else .proceed)

/-- At most `limit` automorphisms of a pattern, and at least the identity. -/
def automorphisms (p : Pattern) (limit : Nat) : Automorphisms :=
  let limit := max limit 1
  let found := (searchOne countLimit (p.keepAutomorphisms limit) (ofGraph p.graph) none p.graph
    [List.range p.graph.nodeCount]).state
  { size := p.graph.nodeCount
    permutations := (found.take limit).mergeSort fun a b => (compare a b).isLE
    truncated := limit < found.length }

end Pattern

namespace Automorphisms

/-- The symmetry order of the automorphisms. -/
def order (a : Automorphisms) : SymmetryOrder := SymmetryOrder.ofPermutations a.size a.permutations

/-- The nodes, united with their images. -/
def orbitForest (a : Automorphisms) : DisjointSets :=
  a.permutations.foldl
    (fun s p => p.zipIdx.foldl (fun s (image, v) => s.union v image) s)
    (DisjointSets.singletons a.size)

/-- A size that is reported. Its place in a report has 32 bits. -/
def reportedSize (n : Nat) : Nat := n % 4294967296

/-- The sizes of the orbits of the nodes, in ascending order. -/
def orbitSizes (a : Automorphisms) : List Nat :=
  let s := a.orbitForest
  let roots := (List.range a.size).map s.root
  (((List.range a.size).filter fun v => s.root v == v).map fun r =>
    reportedSize (roots.count r)).mergeSort

/-- The number of automorphisms, whether there are more, and the sizes of the orbits. -/
structure OrbitReport where
  /-- The number of automorphisms. -/
  order : Nat
  /-- Whether there are more. -/
  truncated : Bool
  /-- The sizes of the orbits, in ascending order. -/
  orbitSizes : List Nat
deriving DecidableEq

/-- The report on a list of automorphisms. -/
def orbitReport (a : Automorphisms) : OrbitReport :=
  if a.size = 0 then ⟨1, a.truncated, []⟩ else ⟨a.permutations.length, a.truncated, a.orbitSizes⟩

end Automorphisms

namespace Pattern

/-- The symmetry order with which a pattern is searched for: the trivial one if symmetric matches
are to be reported. -/
def symmetryOrder (p : Pattern) (config : SearchConfig) : SymmetryOrder :=
  if config.symmetryBreaking then (p.automorphisms config.maxAutomorphisms).order
  else SymmetryOrder.trivial p.graph.nodeCount

end Pattern

end GraphGrammar
