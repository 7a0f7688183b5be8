import GraphGrammar.Graph.Basic
import GraphGrammar.Graph.Fingerprint
import GraphGrammar.Symmetry.Isomorphism

/-!
# Where results go

Results are handed to a collector as they are produced. A collector may keep them all, count them,
or keep one of every class of isomorphic graphs.

## Main definitions

* `GraphGrammar.Collector`, `GraphGrammar.keepAll`, `GraphGrammar.countAll`.
* `GraphGrammar.UniqueGraphs` — one representative of every class.
-/

namespace GraphGrammar

/-- What is done with a result. -/
def Collector (σ : Type) : Type := σ → Graph → σ

/-- Keeps all results in the order of their arrival. -/
def keepAll : Collector (List Graph) := fun graphs g => graphs ++ [g]

/-- Counts the results. -/
def countAll : Collector Nat := fun n _ => n + 1

/-- Graphs of which no two are isomorphic, with their fingerprints. Only graphs with the same
fingerprint are compared. -/
structure UniqueGraphs where
  /-- The graphs with their fingerprints, in the order in which they were first seen. -/
  entries : List (String × Graph)
  /-- The number of graphs that were not new. -/
  duplicates : Nat

namespace UniqueGraphs

/-- No graphs. -/
def empty : UniqueGraphs := ⟨[], 0⟩

/-- The graphs in the order in which they were first seen. -/
def graphs (s : UniqueGraphs) : List Graph := s.entries.map (·.2)

/-- The number of graphs. -/
def size (s : UniqueGraphs) : Nat := s.entries.length

/-- The graphs with a given fingerprint. -/
def withFingerprint (s : UniqueGraphs) (fingerprint : String) : List Graph :=
  (s.entries.filter fun entry => entry.1 == fingerprint).map (·.2)

/-- Whether a graph with a given fingerprint is isomorphic to one that is there. -/
def meets (s : UniqueGraphs) (fingerprint : String) (g : GraphView) : Bool :=
  (s.withFingerprint fingerprint).any fun h => isIsomorphic h.view g

/-- Adds a graph if it is new. Also whether it is. -/
def insert (s : UniqueGraphs) (g : Graph) : UniqueGraphs × Bool :=
  let view := g.view
  let fingerprint := view.fingerprint
  if s.meets fingerprint view then ({ s with duplicates := s.duplicates + 1 }, false)
  else ({ s with entries := s.entries ++ [(fingerprint, g)] }, true)

/-- Adds a graph if it is new. -/
def add : Collector UniqueGraphs := fun s g => (s.insert g).1

end UniqueGraphs

end GraphGrammar
