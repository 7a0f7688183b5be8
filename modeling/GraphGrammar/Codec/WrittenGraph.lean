import GraphGrammar.Graph.Basic

/-!
# Graphs before they are checked

What is read of a written graph, in whichever form, has a version, labels and edges. It is accepted
when the version is one that is supported and every endpoint is a node, in this order.

## Main definitions

* `GraphGrammar.WrittenGraph`, `GraphGrammar.Graph.written`, `GraphGrammar.WrittenGraph.accept`.
-/

namespace GraphGrammar

/-- A graph as it was written. -/
structure WrittenGraph where
  /-- The version of the form. -/
  version : SchemaVersion
  /-- The labels of the nodes. -/
  labels : List String
  /-- The edges; their endpoints may be anything. -/
  edges : List Edge
deriving DecidableEq

/-- A graph as it is written. -/
def Graph.written (g : Graph) : WrittenGraph := ⟨.graphForm, g.labels, g.edges⟩

/-- The graph that was written. -/
def WrittenGraph.accept (w : WrittenGraph) : Except Fault Graph :=
  if SchemaVersion.graphForm.reads w.version then Graph.ofParts w.labels w.edges
  else .error (.unsupportedSchema .graph w.version)

end GraphGrammar
