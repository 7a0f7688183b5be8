import GraphGrammar.Codec.GraphJson
import GraphGrammar.Proofs.Codec.GraphBytes
import GraphGrammar.Proofs.Json.Decode
import GraphGrammar.Proofs.Json.Value

/-!
# Graphs are read from their texts as they were written

A graph is read from its text as it was: with all its texts, and with its edges in their order, each
with its endpoints in their order. That is so if the endpoints of its edges have 64 bits; where all
its numbers have, the bytes of the graph give the same graph.

## Main results

* `GraphGrammar.SchemaVersion.ofJson?_toJson` — a version is read from its value.
* `GraphGrammar.WrittenGraph.ofJson?_toJson` — and so is a written graph, if the endpoints of its
  edges have 64 bits.
* `GraphGrammar.Graph.ofJsonText_eq_accept` — the text of a written graph is read like this graph.
* `GraphGrammar.Graph.ofJsonText_reads_toJsonText` — what becomes of a graph that is written and
  read.
-/

namespace GraphGrammar

/-- **A version** is read from its value. -/
theorem SchemaVersion.ofJson?_toJson (v : SchemaVersion) : ofJson? v.toJson = some v := by
  simp [ofJson?, toJson, Json.members?_record, List.lookup_cons, Json.word32?_natural]

theorem Edge.ofJson?_toJson {e : Edge} (hsource : e.source < 2 ^ 64) (htarget : e.target < 2 ^ 64) :
    ofJson? e.toJson = some e := by
  simp [ofJson?, toJson, Json.members?_record, List.lookup_cons, Json.count?_natural hsource,
    Json.count?_natural htarget]

/-- **A written graph** is read from its value. -/
theorem WrittenGraph.ofJson?_toJson {w : WrittenGraph}
    (h : ∀ e ∈ w.edges, e.source < 2 ^ 64 ∧ e.target < 2 ^ 64) : ofJson? w.toJson = some w := by
  have hedges : Json.list? Edge.ofJson? (.array (w.edges.map Edge.toJson)) = some w.edges :=
    Json.list?_map fun e he => Edge.ofJson?_toJson (h e he).1 (h e he).2
  have hlabels : Json.list? Json.text? (.array (w.labels.map Json.text)) = some w.labels :=
    Json.list?_map fun _ _ => rfl
  simp [ofJson?, toJson, Json.members?_record, List.lookup_cons, SchemaVersion.ofJson?_toJson,
    hedges, hlabels]

namespace Graph

/-- **The text of a written graph** is read as this graph, and judged as it is. -/
theorem ofJsonText_eq_accept {w : WrittenGraph}
    (h : ∀ e ∈ w.edges, e.source < 2 ^ 64 ∧ e.target < 2 ^ 64) :
    ofJsonText w.toJson.pretty = w.accept.mapError .rejectedContent := by
  simp only [ofJsonText, Json.read?_pretty, Option.bind_eq_bind, Option.bind_some,
    WrittenGraph.ofJson?_toJson h]
  cases w.accept <;> rfl

/-- **Graphs as texts.** A graph is read from its text as it was, if the endpoints of its edges have
64 bits. If all its numbers have, it is read from its bytes as well, and as the same graph. -/
theorem ofJsonText_reads_toJsonText (g : Graph)
    (hends : ∀ e ∈ g.edges, e.source < 2 ^ 64 ∧ e.target < 2 ^ 64) :
    ofJsonText g.toJsonText = .ok g ∧
      (g.written.Fits → ofBytes g.toBytes = ofJsonText g.toJsonText) := by
  have htext : ofJsonText g.toJsonText = .ok g := by
    rw [toJsonText, ofJsonText_eq_accept hends, WrittenGraph.accept_written]
    rfl
  refine ⟨htext, fun hfits => ?_⟩
  have hbegins : g.written.Begins g.toBytes := ⟨hfits, List.prefix_refl _⟩
  rw [htext, ofBytes_of_begins hbegins, WrittenGraph.accept_written]

/-- Two parallel edges in opposite directions and a loop, with texts that are escaped, one beyond
the code units of sixteen bits, and an empty one. -/
def twistAndLoop : Graph :=
  ⟨["a\"\\\n\x01", "𝔸", ""], [⟨2, 0, "→"⟩, ⟨1, 1, "\t"⟩, ⟨0, 2, "→"⟩], by decide⟩

/-- The graph is read from its text and from its bytes. -/
theorem ofJsonText_reads_toJsonText_twistAndLoop :
    (∀ e ∈ twistAndLoop.edges, e.source < 2 ^ 64 ∧ e.target < 2 ^ 64) ∧
      twistAndLoop.written.Fits ∧ ofJsonText twistAndLoop.toJsonText = .ok twistAndLoop ∧
      ofBytes twistAndLoop.toBytes = .ok twistAndLoop := by
  have hends : ∀ e ∈ twistAndLoop.edges, e.source < 2 ^ 64 ∧ e.target < 2 ^ 64 := by decide
  have hfits : twistAndLoop.written.Fits := by decide +kernel
  obtain ⟨htext, hbytes⟩ := ofJsonText_reads_toJsonText twistAndLoop hends
  exact ⟨hends, hfits, htext, (hbytes hfits).trans htext⟩

end Graph

end GraphGrammar
