import GraphGrammar.Rewrite.Collector

/-!
# One graph of every class by a table of buckets

The graphs that are kept are stored in the order in which they were first seen. Beside them is a
table of buckets, one for every fingerprint that was met, in the order in which the fingerprints
were met. A bucket has the places of the graphs with its fingerprint. A new graph is compared with
the graphs at the places in its bucket.

## Main definitions

* `GraphGrammar.BucketTable` — the graphs and the buckets.
* `GraphGrammar.BucketTable.insert`, `GraphGrammar.BucketTable.contains` — one more graph, and
  whether it would be new.
* `GraphGrammar.BucketTable.insertAll` — graphs one after the other.
-/

namespace GraphGrammar

/-- Graphs with a table of buckets. -/
structure BucketTable where
  /-- The buckets with their fingerprints: the places of graphs. -/
  buckets : List (String × List Nat)
  /-- The graphs in the order in which they were first seen. -/
  graphs : List Graph
  /-- The number of graphs that were not new. -/
  duplicates : Nat

namespace BucketTable

/-- No graphs. -/
def empty : BucketTable := ⟨[], [], 0⟩

/-- The number of buckets. -/
def bucketCount (s : BucketTable) : Nat := s.buckets.length

/-- The number of graphs. -/
def size (s : BucketTable) : Nat := s.graphs.length

/-- Whether there is no graph. -/
def isEmpty (s : BucketTable) : Bool := s.graphs.isEmpty

/-- The buckets with an empty one for a fingerprint, if it had none. -/
def enter (key : String) (buckets : List (String × List Nat)) : List (String × List Nat) :=
  if (buckets.lookup key).isSome then buckets else buckets ++ [(key, [])]

/-- The buckets with one more place in the one for a fingerprint. -/
def pushPlace (key : String) (i : Nat) (buckets : List (String × List Nat)) :
    List (String × List Nat) :=
  buckets.map fun bucket => if bucket.1 == key then (key, bucket.2 ++ [i]) else bucket

/-- Whether a graph is isomorphic to one at some places, which are tried in turn. There is no answer
if nothing is stored at a place that is tried. -/
def meetsAt (graphs : List Graph) (g : GraphView) : List Nat → Option Bool
  | [] => some false
  | i :: places =>
    match graphs[i]? with
    | none => none
    | some h => if isIsomorphic h.view g then some true else meetsAt graphs g places

/-- Whether a graph is isomorphic to one that is there. -/
def contains (s : BucketTable) (g : Graph) : Option Bool :=
  let view := g.view
  match s.buckets.lookup view.fingerprint with
  | none => some false
  | some places => meetsAt s.graphs view places

/-- Adds a graph if it is new. Also whether it is. A graph that is not new has a bucket already. -/
def insert (s : BucketTable) (g : Graph) : Option (BucketTable × Bool) :=
  let view := g.view
  let key := view.fingerprint
  let buckets := enter key s.buckets
  match meetsAt s.graphs view ((buckets.lookup key).getD []) with
  | none => none
  | some true => some ({ s with buckets, duplicates := s.duplicates + 1 }, false)
  | some false =>
    some ({ s with
      buckets := pushPlace key s.graphs.length buckets
      graphs := s.graphs ++ [g] }, true)

/-- Adds a graph to a table if it is new. -/
def add : Collector (Option BucketTable) := fun s g => (s.bind fun s => s.insert g).map (·.1)

/-- The table after graphs that are inserted one after the other. -/
def insertAll (graphs : List Graph) : Option BucketTable :=
  graphs.foldl (fun s g => add s g) (some empty)

end BucketTable

end GraphGrammar
