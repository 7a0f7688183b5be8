import GraphGrammar.Codec.GraphBytes
import GraphGrammar.Codec.GraphJson
import GraphGrammar.Graph.Indexed

/-!
# Stored graphs that are read

A stored graph is not written with the numbers of the edges at its nodes. When it is read, it is
built anew from its labels and its edges.

## Main definitions

* `GraphGrammar.IndexedGraph.accept` — the stored graph that was written.
* `GraphGrammar.IndexedGraph.ofBytes`, `GraphGrammar.IndexedGraph.ofJsonText`.
-/

namespace GraphGrammar

namespace IndexedGraph

/-- The stored graph that was written. -/
def accept (w : WrittenGraph) : Except Fault IndexedGraph :=
  if SchemaVersion.graphForm.reads w.version then ofParts w.labels w.edges
  else .error (.unsupportedSchema .graph w.version)

/-- The stored graph that the bytes start with. -/
def ofBytes (input : List UInt8) : Except Fault IndexedGraph :=
  match ByteReader.writtenGraph input with
  | none => .error (.unreadable .bytes)
  | some (w, _) => accept w

/-- The stored graph that a text is. -/
def ofJsonText (text : String) : Except Fault IndexedGraph :=
  let read? := do
    let (value, isWhole) ← Json.read? text
    some (← WrittenGraph.ofJson? value, isWhole)
  match read? with
  | none => .error (.unreadable .jsonText)
  | some (w, isWhole) =>
    match accept w with
    | .error cause => .error (.rejectedContent cause)
    | .ok g => if isWhole then .ok g else .error (.unreadable .jsonText)

end IndexedGraph

end GraphGrammar
