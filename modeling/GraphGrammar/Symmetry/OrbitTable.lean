import GraphGrammar.Graph.ParentTable
import GraphGrammar.Symmetry.Automorphism

/-!
# Orbits by a table

Every node is united with its images in a table of parents. Then the nodes are looked up in turn,
and it is counted how often every root is found.

## Main definitions

* `GraphGrammar.Automorphisms.countOrbits`, `GraphGrammar.Automorphisms.tableReport?` — the report
  on a list of automorphisms.
-/

namespace GraphGrammar

namespace Automorphisms

/-- Unites the nodes with their images, and counts the nodes of every set. -/
def countOrbits (a : Automorphisms) : TableCall (List Nat) := do
  forM a.permutations fun perm => ParentTable.unionAll (perm.zipIdx.map Prod.swap)
  let roots ← (List.range a.size).mapM ParentTable.find
  return (roots.eraseDups.map fun r => reportedSize (roots.count r)).mergeSort

/-- The report on a list of automorphisms. -/
def tableReport? (a : Automorphisms) : Option OrbitReport :=
  if a.size = 0 then some ⟨1, a.truncated, []⟩
  else (a.countOrbits.run' (ParentTable.singletons a.size)).map fun sizes =>
    ⟨a.permutations.length, a.truncated, sizes⟩

end Automorphisms

end GraphGrammar
