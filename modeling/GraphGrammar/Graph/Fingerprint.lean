import GraphGrammar.Codec.Hex
import GraphGrammar.Codec.LittleEndian
import GraphGrammar.Digest.Sha256
import GraphGrammar.Graph.View

/-!
# Fingerprints of graphs

The fingerprint of a graph does not depend on how its nodes and edges are numbered. Every node has a
colour, at first a hash of its label. In each of four rounds, the new colour of a node is a hash of
its colour and of the sorted list of what lies around it: for every edge whether it is a self-loop,
its label, and the colour at its other end. The fingerprint is a hash of the number of nodes, the
number of edges, and the colours with their frequencies.

## Main definitions

* `GraphGrammar.GraphView.colors`, `GraphGrammar.GraphView.fingerprint`.
-/

namespace GraphGrammar

namespace GraphView

variable (g : GraphView)

/-- The colour of a node: a hash. -/
abbrev Color := List UInt8

/-- What a node sees along an edge. -/
structure Sight where
  /-- Whether the edge is a self-loop. -/
  selfLoop : Bool
  /-- The label of the edge. -/
  label : String
  /-- The colour at the other end. -/
  color : Color
deriving DecidableEq

namespace Sight

/-- Sights are sorted with self-loops last, by label, and by colour. -/
def atMost (a b : Sight) : Bool :=
  ((compare a.selfLoop b.selfLoop).then
    ((compare a.label b.label).then (compare a.color b.color))).isLE

/-- A sight as bytes. -/
def bytes (s : Sight) : List UInt8 :=
  (if s.selfLoop then 1 else 0) :: (textBytes s.label ++ s.color)

end Sight

/-- The first colour of a node with a given label. -/
def firstColor (label : String) : Color := Sha256.hash ("node".toUTF8.toList ++ textBytes label)

/-- What a node sees when the nodes have given colours. -/
def sights (color : Nat → Color) (v : Nat) : List Sight :=
  (g.incident v).map fun e => ⟨e.node == v, e.label, color e.node⟩

/-- The colour that follows from a colour and from what is seen. -/
def nextColor (own : Color) (seen : List Sight) : Color :=
  Sha256.hash (own ++ wordBytes seen.length ++ (seen.mergeSort Sight.atMost).flatMap Sight.bytes)

/-- The colours of all nodes after some rounds. -/
def colors (rounds : Nat) : Array Color :=
  match rounds with
  | 0 => (Array.range g.nodeCount).map fun v => firstColor (g.label v)
  | rounds + 1 =>
    let before := colors rounds
    (Array.range g.nodeCount).map fun v =>
      nextColor (before.getD v []) (g.sights (fun w => before.getD w []) v)

/-- The different colours of a list in ascending order, each with its frequency, as bytes. -/
def histogramBytes (l : List Color) : List UInt8 :=
  let sorted := l.mergeSort fun a b => (compare a b).isLE
  sorted.eraseReps.flatMap fun c => c ++ wordBytes (sorted.count c)

/-- The fingerprint as a hash. -/
def fingerprintBytes : List UInt8 :=
  Sha256.hash (wordBytes g.nodeCount ++ wordBytes g.edgeCount ++
    histogramBytes (g.colors 4).toList)

/-- The fingerprint as text. -/
def fingerprint : String := hexText g.fingerprintBytes

end GraphView

end GraphGrammar
