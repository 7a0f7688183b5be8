import GraphGrammar.Codec.WrittenGraph
import GraphGrammar.Json.Decode
import GraphGrammar.Json.Writer

/-!
# Graphs as JSON texts

A graph is written with its version, its labels and its edges. When a graph is read, it is checked
before what follows it in the text is looked at.

## Main definitions

* `GraphGrammar.Graph.toJsonText` and `GraphGrammar.Graph.ofJsonText`.
-/

namespace GraphGrammar

/-- A version as a value. -/
def SchemaVersion.toJson (v : SchemaVersion) : Json :=
  .record [("major", .natural v.major.toNat), ("minor", .natural v.minor.toNat),
    ("patch", .natural v.patch.toNat)]

/-- The version that a value is. -/
def SchemaVersion.ofJson? (value : Json) : Option SchemaVersion := do
  let [major, minor, patch] ← value.members? ["major", "minor", "patch"] | none
  some ⟨← Json.required? Json.word32? major, ← Json.required? Json.word32? minor,
    ← Json.required? Json.word32? patch⟩

/-- An edge as a value. -/
def Edge.toJson (e : Edge) : Json :=
  .record [("source", .natural e.source), ("target", .natural e.target), ("label", .text e.label)]

/-- The edge that a value is. -/
def Edge.ofJson? (value : Json) : Option Edge := do
  let [source, target, label] ← value.members? ["source", "target", "label"] | none
  some ⟨← Json.required? Json.count? source, ← Json.required? Json.count? target,
    ← Json.required? Json.text? label⟩

/-- A written graph as a value. -/
def WrittenGraph.toJson (w : WrittenGraph) : Json :=
  .record [("schema_version", w.version.toJson), ("nodes", .array (w.labels.map Json.text)),
    ("edges", .array (w.edges.map Edge.toJson))]

/-- The written graph that a value is. -/
def WrittenGraph.ofJson? (value : Json) : Option WrittenGraph := do
  let [version, nodes, edges] ← value.members? ["schema_version", "nodes", "edges"] | none
  some ⟨← Json.required? SchemaVersion.ofJson? version,
    ← Json.required? (Json.list? Json.text?) nodes,
    ← Json.required? (Json.list? Edge.ofJson?) edges⟩

namespace Graph

/-- A graph as text. -/
def toJsonText (g : Graph) : String := g.written.toJson.pretty

/-- The graph that a text is. -/
def ofJsonText (text : String) : Except Fault Graph :=
  let read? := do
    let (value, isWhole) ← Json.read? text
    some (← WrittenGraph.ofJson? value, isWhole)
  match read? with
  | none => .error (.unreadable .jsonText)
  | some (w, isWhole) =>
    match w.accept with
    | .error cause => .error (.rejectedContent cause)
    | .ok g => if isWhole then .ok g else .error (.unreadable .jsonText)

end Graph

end GraphGrammar
