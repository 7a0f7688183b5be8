import GraphGrammar.Codec.Layout
import GraphGrammar.Codec.WrittenGraph

/-!
# Graphs as bytes

The version comes first, its parts in four bytes each. Then come the labels and the edges, each list
behind its length; an edge is its source, its target and its label. Bytes after the last edge do not
matter.

## Main definitions

* `GraphGrammar.Graph.toBytes` and `GraphGrammar.Graph.ofBytes`.
-/

namespace GraphGrammar

/-- A version in twelve bytes. -/
def SchemaVersion.toBytes (v : SchemaVersion) : List UInt8 :=
  littleEndian 4 v.major.toNat ++ littleEndian 4 v.minor.toNat ++ littleEndian 4 v.patch.toNat

/-- An edge as bytes. -/
def Edge.toBytes (e : Edge) : List UInt8 :=
  wordBytes e.source ++ wordBytes e.target ++ textBytes e.label

/-- A written graph as bytes. -/
def WrittenGraph.toBytes (w : WrittenGraph) : List UInt8 :=
  w.version.toBytes ++ (wordBytes w.labels.length ++ w.labels.flatMap textBytes) ++
    (wordBytes w.edges.length ++ w.edges.flatMap Edge.toBytes)

namespace ByteReader

/-- A version. -/
def version : ByteReader SchemaVersion := fun input => do
  let (major, rest) ← word32 input
  let (minor, rest) ← word32 rest
  let (patch, rest) ← word32 rest
  some (⟨major, minor, patch⟩, rest)

/-- An edge. -/
def edge : ByteReader Edge := fun input => do
  let (source, rest) ← number 8 input
  let (target, rest) ← number 8 rest
  let (label, rest) ← text rest
  some (⟨source, target, label⟩, rest)

/-- A written graph. -/
def writtenGraph : ByteReader WrittenGraph := fun input => do
  let (version, rest) ← version input
  let (labels, rest) ← list text rest
  let (edges, rest) ← list edge rest
  some (⟨version, labels, edges⟩, rest)

end ByteReader

namespace Graph

/-- A graph as bytes. -/
def toBytes (g : Graph) : List UInt8 := g.written.toBytes

/-- The graph that the bytes start with. -/
def ofBytes (input : List UInt8) : Except Fault Graph :=
  match ByteReader.writtenGraph input with
  | none => .error (.unreadable .bytes)
  | some (w, _) => w.accept

end Graph

end GraphGrammar
