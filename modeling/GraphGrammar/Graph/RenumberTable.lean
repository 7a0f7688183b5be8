import GraphGrammar.Graph.Indexed

/-!
# Renumbering by marks

A list of new numbers is checked in one pass, which marks every number when it is met and stops at
one that is no node or that is marked already. The labels are then put into their places one after
the other.

## Main definitions

* `GraphGrammar.meetsOnce` — whether numbers are met that are not marked yet, and none of them
  twice.
* `GraphGrammar.placeLabels` — labels that are put into their places.
* `GraphGrammar.IndexedGraph.permute` — the graph with its nodes renumbered.
-/

namespace GraphGrammar

/-- Whether all numbers of a list have a mark that is not set when they are met. Every number that
is met sets its mark. -/
def meetsOnce : List Bool → List Nat → Bool
  | _, [] => true
  | marks, v :: rest =>
    match marks[v]? with
    | some false => meetsOnce (marks.set v true) rest
    | _ => false

/-- Puts every label into its place, where there is one. -/
def placeLabels (places : List String) (labels : List (Nat × String)) : List String :=
  labels.foldl (fun places (v, label) => places.set v label) places

/-- The graph in which the node `v` of `g` has the number `perm[v]`. -/
def IndexedGraph.permute (g : IndexedGraph) (perm : List Nat) : Except Fault IndexedGraph :=
  let n := g.labels.length
  if perm.length ≠ n || !meetsOnce (List.replicate n false) perm then
    .error (.notAPermutation n perm.length)
  else
    ofParts
      (placeLabels (List.replicate n "")
        (perm.zipIdx.map fun (new, old) => (new, g.labels.getD old "")))
      (g.edges.map (Edge.mapNodes fun v => perm.getD v v))

end GraphGrammar
