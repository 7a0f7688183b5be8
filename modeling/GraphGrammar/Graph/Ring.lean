import GraphGrammar.Graph.View

/-!
# Rings

Whoever enumerates the rings of a graph hands them over as closed lists of nodes. The log keeps
those that are closed and stay within the graph, and counts the others.

## Main definitions

* `GraphGrammar.RingLog` and `GraphGrammar.RingLog.add`.
-/

namespace GraphGrammar

/-- The rings that were handed over. -/
structure RingLog where
  /-- Those that were accepted, in the order of their arrival. -/
  rings : List (List Nat)
  /-- The number of the others. -/
  rejected : Nat
deriving DecidableEq

namespace RingLog

/-- No rings. -/
def empty : RingLog := ⟨[], 0⟩

/-- Whether a list of nodes ends where it began and leads back there by at least one step. -/
def isClosed (ring : List Nat) : Bool := 2 ≤ ring.length && ring.head? == ring.getLast?

/-- The log with a list of nodes of a graph handed over. -/
def add (log : RingLog) (g : GraphView) (ring : List Nat) : RingLog :=
  if isClosed ring && ring.all (· < g.nodeCount) then { log with rings := log.rings ++ [ring] }
  else { log with rejected := log.rejected + 1 }

end RingLog

end GraphGrammar
